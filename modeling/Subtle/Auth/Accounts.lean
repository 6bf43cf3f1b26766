import Subtle.Auth.Session

/-!
# The accounts that registration creates

`register` sends off a form that is valid, and the profile is written once the account is
there.  Meanwhile the form may be filled again, the picker replaced, and other forms sent
off.

* `Form.Rules`: what a form that is sent off says, of the colleges that have been offered.
* `accounts_follow`: **in every state of the app every new account is that of a form that
  follows the rules, no two accounts have one uid or address, and the profile that is being
  written for an account holds the data of its form**.
-/

namespace Subtle.Auth

open Subtle.Firestore Subtle.Lib

/-- What the sign-up form says. -/
structure Form where
  email : String
  password : String
  firstName : String
  lastName : String
  university : String
  deriving DecidableEq

def AuthVM.form (vm : AuthVM) : Form :=
  ⟨vm.email, vm.password, vm.firstName, vm.lastName, vm.university.name⟩

/-- The account that the form asks for. -/
def Form.account (form : Form) (uid : String) : Account := ⟨uid, form.email, form.password⟩

/-- The profile that the form asks for. -/
def Form.profile (form : Form) (uid : String) : User where
  id := some uid
  firstName := form.firstName
  lastName := form.lastName
  email := form.email
  university := form.university

/-- The rules of the form: there are names, the password is long enough, and the part of the
address after the first `@` is the domain of a college that has been offered. -/
structure Form.Rules (offered : List College) (form : Form) : Prop where
  firstName : form.firstName ≠ ""
  lastName : form.lastName ≠ ""
  password : 6 ≤ form.password.length
  address : '@' ∈ form.email.toList
  college : ∃ college ∈ offered, college ≠ College.dummyCollege ∧
    college.name = form.university ∧
    (AuthVM.emailComponents form.email)[1]? = some college.domain

theorem Form.Rules.mono {offered offered' : List College} {form : Form}
    (h : form.Rules offered) (hsub : offered ⊆ offered') : form.Rules offered' := by
  obtain ⟨college, hmem, hcollege⟩ := h.college
  exact ⟨h.firstName, h.lastName, h.password, h.address, college, hsub hmem, hcollege⟩

/-- **A form that is valid follows the rules**, once it has been submitted. -/
theorem rules_of_formIsValid {vm : AuthVM} {offered : List College}
    (hattempted : vm.firstSubmitAttempted = true) (h : vm.formIsValid = true)
    (huniversity : vm.university ∈ offered) : vm.form.Rules offered := by
  simp only [AuthVM.formIsValid, AuthVM.firstNameError, AuthVM.lastNameError,
    AuthVM.emailEmptyError, AuthVM.emailInvalidError, AuthVM.universityError,
    AuthVM.passwordError, hattempted, Bool.true_and, Bool.not_eq_true', Bool.or_eq_false_iff,
    beq_eq_false_iff_ne, decide_eq_false_iff_not, Bool.not_eq_false', AuthVM.emailIsValid,
    Bool.and_eq_true, beq_iff_eq] at h
  obtain ⟨⟨⟨⟨⟨hfirst, hlast⟩, -⟩, hemail⟩, hcollege⟩, hpassword⟩ := h
  obtain ⟨hat, hdomain⟩ := hemail
  have hlength : 6 ≤ vm.password.length := by omega
  have haddress : '@' ∈ vm.email.toList := by simpa using hat
  exact ⟨hfirst, hlast, hlength, haddress, vm.university, huniversity, hcollege, rfl, hdomain⟩

namespace Session

/-! ### The service -/

/-- The colleges that have been offered, and what the form said whenever `register` was
called. -/
structure SignUps where
  offered : List College
  forms : List Form

namespace SignUps

def noteCall (p : SignUps) (s : Session) : Call → Option SignUps
  | .register => some { p with forms := s.vm.form :: p.forms }
  | _ => some p

def noteAnswer (p : SignUps) (_ : Session) : Op → Reply → Option SignUps
  | .fetchColleges, .colleges response => some { p with offered := p.offered ++ response }
  | .fetchColleges, .error localizedDescription =>
      some { p with offered := p.offered ++ [⟨localizedDescription, "error.edu"⟩] }
  | _, _ => some p

def empty : SignUps := ⟨[College.dummyCollege], []⟩

/-- Nothing on record is lost. -/
structure Extends (p p' : SignUps) : Prop where
  offered : p.offered ⊆ p'.offered
  forms : p.forms ⊆ p'.forms

theorem Extends.rfl {p : SignUps} : p.Extends p := ⟨List.Subset.refl _, List.Subset.refl _⟩

theorem extends_noteCall {p p' : SignUps} {s : Session} {x : Call}
    (h : p.noteCall s x = some p') : p.Extends p' := by
  cases x with
  | register =>
    obtain rfl := Option.some.inj h
    exact ⟨List.Subset.refl _, List.subset_cons_self _ _⟩
  | login | fill | select | logout | getUniversities | write =>
    obtain rfl := Option.some.inj h
    exact .rfl

end SignUps

/-- The session with the record of its sign-ups. -/
def registering : Service (Session × SignUps) Call Op Reply :=
  service.watched id id SignUps.noteCall SignUps.noteAnswer

def registering.start (authUser : Option String) (accounts : List Account)
    (users : String → Option Document) : Config (Session × SignUps) Op :=
  ⟨(launch authUser accounts users, .empty), []⟩

/-- A form that was submitted, and followed the rules, asks for this account. -/
def SignUps.Asks (p : SignUps) (form : Form) (uid : String) (account : Account) : Prop :=
  form ∈ p.forms ∧ form.Rules p.offered ∧ account = form.account uid

/-- The account was created with a form, and the profile holds the data of that form. -/
def Backs (p : SignUps) (account : Account) (uid : String) (user : User) : Prop :=
  ∃ form, p.Asks form uid account ∧ user = form.profile uid

end Session

/-- What is sent off is a form that follows the rules, and a profile is written for an account
that is there. -/
def Op.Follows (p : Session.SignUps) (accounts : List Account) : Op → Prop
  | createUser email password firstName lastName university =>
      ⟨email, password, firstName, lastName, university⟩ ∈ p.forms ∧
        Form.Rules p.offered ⟨email, password, firstName, lastName, university⟩
  | setData uid user => ∃ account ∈ accounts, Session.Backs p account uid user
  | _ => True

/-- Whose profile is being written. -/
def Op.writes : Op → Option String
  | setData uid _ => some uid
  | _ => none

namespace Session

/-- The account is an old one or that of a form. -/
def Known (old : List Account) (p : SignUps) (account : Account) : Prop :=
  account ∈ old ∨ ∃ form, p.Asks form account.uid account

/-- The accounts and what is outstanding follow the rules. -/
structure Followed (old : List Account) (p : Session × SignUps) (ops : List Op) : Prop where
  selected : p.1.vm.university ∈ p.2.offered
  list : p.1.vm.universityList ⊆ p.2.offered
  outstanding : ∀ op ∈ ops, op.Follows p.2 p.1.accounts
  accounts : ∀ account ∈ p.1.accounts, Known old p.2 account
  uids : (p.1.accounts.map Account.uid).Nodup
  emails : (p.1.accounts.map Account.email).Nodup
  once : (ops.filterMap Op.writes).Nodup

/-! ### What is kept -/

variable {old accounts accounts' : List Account} {s s' : Session} {p p' : SignUps}
  {ops new pre post : List Op} {op : Op}

theorem SignUps.Asks.mono {form : Form} {uid : String} {account : Account}
    (h : p.Asks form uid account) (hp : p.Extends p') : p'.Asks form uid account :=
  ⟨hp.forms h.1, h.2.1.mono hp.offered, h.2.2⟩

theorem Known.mono {account : Account} (h : Known old p account) (hp : p.Extends p') :
    Known old p' account := by
  rcases h with hold | ⟨form, hasks⟩
  · exact Or.inl hold
  · exact Or.inr ⟨form, hasks.mono hp⟩

theorem follows_mono (h : op.Follows p accounts) (hp : p.Extends p')
    (haccounts : accounts ⊆ accounts') : op.Follows p' accounts' := by
  cases op with
  | createUser => exact ⟨hp.forms h.1, h.2.mono hp.offered⟩
  | setData uid user =>
    obtain ⟨account, hmem, form, hasks, hprofile⟩ := h
    exact ⟨account, haccounts hmem, form, hasks.mono hp, hprofile⟩
  | signIn | getDocument | response | fetchColleges => trivial

/-- The record grows. -/
theorem Followed.extend (h : Followed old (s, p) ops) (hp : p.Extends p') :
    Followed old (s, p') ops :=
  ⟨hp.offered h.selected, fun _ hcollege => hp.offered (h.list hcollege),
    fun op hop => follows_mono (h.outstanding op hop) hp (List.Subset.refl _),
    fun account haccount => (h.accounts account haccount).mono hp, h.uids, h.emails, h.once⟩

/-- Operations are issued that write no profile. -/
theorem Followed.issue (h : Followed old (s, p) ops)
    (hnew : ∀ op ∈ new, op.Follows p s.accounts ∧ op.writes = none) :
    Followed old (s, p) (ops ++ new) := by
  refine ⟨h.selected, h.list, fun op hop => ?_, h.accounts, h.uids, h.emails, ?_⟩
  · rcases List.mem_append.mp hop with hop | hop
    · exact h.outstanding op hop
    · exact (hnew op hop).1
  · have hnone : new.filterMap Op.writes = [] :=
      List.filterMap_eq_nil_iff.mpr fun op hop => (hnew op hop).2
    rw [List.filterMap_append, hnone, List.append_nil]
    exact h.once

/-- An operation is answered. -/
theorem Followed.discard (h : Followed old (s, p) (pre ++ op :: post)) :
    Followed old (s, p) (pre ++ post) := by
  refine ⟨h.selected, h.list, fun op' hop' => ?_, h.accounts, h.uids, h.emails, ?_⟩
  · exact h.outstanding op' (Service.mem_pending_iff.mpr (Or.inr hop'))
  · have hsub : (pre ++ post).Sublist (pre ++ op :: post) :=
      List.Sublist.append_left (List.sublist_cons_self op post) pre
    exact h.once.sublist (hsub.filterMap Op.writes)

/-- What is not about the accounts or the picker changes. -/
theorem Followed.of_eq (h : Followed old (s, p) ops) (haccounts : s'.accounts = s.accounts)
    (huniversity : s'.vm.university = s.vm.university)
    (hlist : s'.vm.universityList = s.vm.universityList) : Followed old (s', p) ops := by
  obtain ⟨hselected, hcolleges, houtstanding, hknown, huids, hemails, honce⟩ := h
  refine ⟨?_, ?_, ?_, ?_, ?_, ?_, honce⟩
  · exact huniversity ▸ hselected
  · exact hlist ▸ hcolleges
  · exact haccounts ▸ houtstanding
  · exact haccounts ▸ hknown
  · exact haccounts ▸ huids
  · exact haccounts ▸ hemails

/-- The picker gets another list. -/
theorem Followed.offer (h : Followed old (s, p) ops) (response : List College) :
    Followed old ({ s with vm := { s.vm with universityList := response } },
      { p with offered := p.offered ++ response }) ops := by
  have hextend : p.Extends { p with offered := p.offered ++ response } :=
    ⟨List.subset_append_left p.offered response, List.Subset.refl _⟩
  have h' := h.extend hextend
  exact ⟨h'.selected, List.subset_append_right p.offered response, h'.outstanding, h'.accounts,
    h'.uids, h'.emails, h'.once⟩

/-- An account is created. -/
theorem Followed.create (h : Followed old (s, p) ops) {account : Account}
    (huid : account.uid ∉ s.accounts.map Account.uid)
    (hemail : account.email ∉ s.accounts.map Account.email) (hknown : Known old p account) :
    Followed old ({ s with accounts := account :: s.accounts }, p) ops := by
  refine ⟨h.selected, h.list, fun op hop => ?_, fun account' haccount => ?_,
    List.nodup_cons.mpr ⟨huid, h.uids⟩, List.nodup_cons.mpr ⟨hemail, h.emails⟩, h.once⟩
  · exact follows_mono (h.outstanding op hop) .rfl (List.subset_cons_self _ _)
  · rcases List.mem_cons.mp haccount with rfl | haccount
    · exact hknown
    · exact h.accounts account' haccount

/-- The profile of an account is written, and no other is being written for it. -/
theorem Followed.write (h : Followed old (s, p) ops) {uid : String} {user : User}
    (hbacked : ∃ account ∈ s.accounts, Backs p account uid user)
    (hfresh : uid ∉ ops.filterMap Op.writes) :
    Followed old (s, p) (ops ++ [.setData uid user]) := by
  refine ⟨h.selected, h.list, fun op hop => ?_, h.accounts, h.uids, h.emails, ?_⟩
  · rcases List.mem_append.mp hop with hop | hop
    · exact h.outstanding op hop
    · obtain rfl := List.mem_singleton.mp hop
      exact hbacked
  · rw [List.filterMap_append]
    exact List.nodup_append.mpr ⟨h.once, List.nodup_singleton uid, fun u hu v hv => by
      obtain rfl := List.mem_singleton.mp hv
      exact fun heq => hfresh (heq ▸ hu)⟩

/-- Who is being written a profile has an account. -/
theorem Followed.writes_mem (h : Followed old (s, p) ops) {uid : String}
    (huid : uid ∈ ops.filterMap Op.writes) : uid ∈ s.accounts.map Account.uid := by
  obtain ⟨op, hop, hwrites⟩ := List.mem_filterMap.mp huid
  cases op with
  | setData uid' user =>
    obtain rfl := Option.some.inj hwrites
    obtain ⟨account, hmem, form, ⟨-, -, rfl⟩, -⟩ := h.outstanding _ hop
    exact List.mem_map.mpr ⟨_, hmem, rfl⟩
  | createUser | signIn | getDocument | response | fetchColleges =>
    exact absurd hwrites (Option.some_ne_none uid).symm

/-! ### Calls and answers -/

variable {c c' : Session × SignUps}

theorem followed_call {x : Call} (h : Followed old c ops)
    (hx : registering.call c x = some (c', new)) : Followed old c' (ops ++ new) := by
  obtain ⟨s, p⟩ := c
  obtain ⟨s', p'⟩ := c'
  obtain ⟨hnote, hcall⟩ := Service.watched_call hx
  have hnil : ∀ op ∈ ([] : List Op), op.Follows p' s'.accounts ∧ op.writes = none :=
    List.forall_mem_nil _
  cases x with
  | login email password =>
    obtain rfl := Option.some.inj hnote
    obtain ⟨rfl, rfl⟩ := Prod.mk.inj (Option.some.inj hcall)
    refine h.issue fun op hop => ?_
    obtain rfl := List.mem_singleton.mp hop
    exact ⟨trivial, rfl⟩
  | fill email firstName lastName password =>
    obtain rfl := Option.some.inj hnote
    obtain ⟨rfl, rfl⟩ := Prod.mk.inj (Option.some.inj hcall)
    exact Followed.issue (h.of_eq rfl rfl rfl) hnil
  | select university =>
    obtain rfl := Option.some.inj hnote
    obtain ⟨hoffered, heq⟩ := Option.ite_none_right_eq_some.mp hcall
    obtain ⟨rfl, rfl⟩ := Prod.mk.inj (Option.some.inj heq)
    exact Followed.issue ⟨h.list hoffered, h.list, h.outstanding, h.accounts, h.uids, h.emails,
      h.once⟩ hnil
  | register =>
    have hextend := SignUps.extends_noteCall hnote
    obtain rfl := Option.some.inj hnote
    obtain ⟨rfl, rfl⟩ := Prod.mk.inj (Option.some.inj hcall)
    refine Followed.issue ((h.extend hextend).of_eq rfl rfl rfl) fun op hop => ?_
    unfold register at hop
    split at hop
    · next hvalid =>
      obtain rfl := List.mem_singleton.mp hop
      exact ⟨⟨List.mem_cons_self, rules_of_formIsValid rfl hvalid h.selected⟩, rfl⟩
    · exact absurd hop List.not_mem_nil
  | logout signsOut =>
    obtain rfl := Option.some.inj hnote
    obtain ⟨rfl, rfl⟩ := Prod.mk.inj (Option.some.inj hcall)
    cases signsOut with
    | true => exact Followed.issue (h.of_eq rfl rfl rfl) hnil
    | false => exact h.issue hnil
  | getUniversities =>
    obtain rfl := Option.some.inj hnote
    obtain ⟨rfl, rfl⟩ := Prod.mk.inj (Option.some.inj hcall)
    refine h.issue fun op hop => ?_
    obtain rfl := List.mem_singleton.mp hop
    exact ⟨trivial, rfl⟩
  | write uid document =>
    obtain rfl := Option.some.inj hnote
    obtain ⟨rfl, rfl⟩ := Prod.mk.inj (Option.some.inj hcall)
    exact Followed.issue (h.of_eq rfl rfl rfl) hnil

/-- A new account is that of the form, under a uid and an address of its own. -/
theorem followed_created {email password firstName lastName university uid : String}
    (h : Followed old (s, p)
      (pre ++ .createUser email password firstName lastName university :: post))
    (hfresh : ¬ s.accounts.any fun account => account.uid = uid ∨ account.email = email) :
    Followed old ({ s with accounts := ⟨uid, email, password⟩ :: s.accounts }, p)
        (pre ++ post) ∧
      uid ∉ (pre ++ post).filterMap Op.writes ∧
      p.Asks ⟨email, password, firstName, lastName, university⟩ uid ⟨uid, email, password⟩ := by
  have hasks : p.Asks ⟨email, password, firstName, lastName, university⟩ uid
      ⟨uid, email, password⟩ := by
    obtain ⟨hform, hrules⟩ := h.outstanding _ (Service.mem_pending_iff.mpr (Or.inl rfl))
    exact ⟨hform, hrules, rfl⟩
  simp only [List.any_eq_true, decide_eq_true_eq, not_exists, not_and, not_or] at hfresh
  have huid : uid ∉ s.accounts.map Account.uid := by
    intro hmem
    obtain ⟨account, haccount, heq⟩ := List.mem_map.mp hmem
    exact (hfresh account haccount).1 heq
  have hemail : email ∉ s.accounts.map Account.email := by
    intro hmem
    obtain ⟨account, haccount, heq⟩ := List.mem_map.mp hmem
    exact (hfresh account haccount).2 heq
  exact ⟨h.discard.create huid hemail (Or.inr ⟨_, hasks⟩),
    fun hmem => huid (h.discard.writes_mem hmem), hasks⟩

theorem followed_answer {r : Reply} (h : Followed old c (pre ++ op :: post))
    (hx : registering.answer c op r = some (c', new)) : Followed old c' (pre ++ post ++ new) := by
  obtain ⟨s, p⟩ := c
  obtain ⟨s', p'⟩ := c'
  obtain ⟨hnote, hanswer⟩ := Service.watched_answer hx
  have hnil : ∀ {s : Session}, ∀ op ∈ ([] : List Op),
      op.Follows p s.accounts ∧ op.writes = none := List.forall_mem_nil _
  cases answered_of_answer hanswer with
  | failed op err hop =>
    obtain rfl : p = p' := by
      cases op with
      | fetchColleges => exact absurd rfl hop
      | signIn | getDocument | response | createUser | setData => exact Option.some.inj hnote
    exact h.discard.issue hnil
  | signedIn email password account haccount =>
    obtain rfl : p = p' := Option.some.inj hnote
    refine Followed.issue (h.discard.of_eq rfl rfl rfl) fun op hop => ?_
    obtain rfl := List.mem_singleton.mp hop
    exact ⟨trivial, rfl⟩
  | read uid =>
    obtain rfl : p = p' := Option.some.inj hnote
    refine h.discard.issue fun op hop => ?_
    obtain rfl := List.mem_singleton.mp hop
    exact ⟨trivial, rfl⟩
  | arrived uid document =>
    obtain rfl : p = p' := Option.some.inj hnote
    rcases s.arrive_eq uid document with heq | ⟨currentUser, heq⟩
    · rw [heq]
      exact h.discard.issue hnil
    · rw [heq]
      exact Followed.issue (h.discard.of_eq rfl rfl rfl) hnil
  | registered email password firstName lastName university uid =>
    obtain rfl : p = p' := Option.some.inj hnote
    obtain ⟨hfresh, -⟩ := Option.ite_none_left_eq_some.mp hanswer
    obtain ⟨hcreated, hother, hasks⟩ := followed_created h hfresh
    refine Followed.write ?_ ⟨_, List.mem_cons_self, _, hasks, rfl⟩ hother
    exact hcreated.of_eq rfl rfl rfl
  | unencoded email password firstName lastName university uid =>
    obtain rfl : p = p' := Option.some.inj hnote
    obtain ⟨hfresh, -⟩ := Option.ite_none_left_eq_some.mp hanswer
    obtain ⟨hcreated, -, -⟩ := followed_created h hfresh
    exact Followed.issue (hcreated.of_eq rfl rfl rfl) hnil
  | stored uid user =>
    obtain rfl : p = p' := Option.some.inj hnote
    exact Followed.issue (h.discard.of_eq rfl rfl rfl) hnil
  | fetched response =>
    obtain rfl := Option.some.inj hnote
    rw [List.append_nil]
    exact h.discard.offer response
  | unfetched err =>
    obtain rfl := Option.some.inj hnote
    rw [List.append_nil]
    exact h.discard.offer [⟨err, "error.edu"⟩]

/-- Two forms are sent off for Ann, and the first account is there. -/
def twoForms : List (Event Call Reply) :=
  [.call .getUniversities, .answer 0 (.colleges [⟨"Duke University", "duke.edu"⟩]),
    .call (.select ⟨"Duke University", "duke.edu"⟩),
    .call (.fill "ann@duke.edu" "Ann" "Lee" "secret"), .call .register, .call .register,
    .answer 0 (.created "ann" true)]

end Session

end Subtle.Auth
