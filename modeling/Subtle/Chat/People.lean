import Subtle.Auth.Accounts
import Subtle.Chat.Names
import Subtle.Lib.Clients

/-!
# The people of the app

All devices share the accounts and the profiles.  Only `register` writes a profile, once the
account for it is there, and the chat lists of all users read the profiles to name the partners.
The form that an account was created with is put on record.

* `people`: the accounts and the profiles, with any number of devices and chat lists.
* `accounts_registered`: **every new account is that of a form that follows the rules, every
  profile holds the data of the form of its account, and so does the user of a device**.
* `names_current`: **no chat list ever shows a name that is not the one in the profile**.
-/

namespace Subtle.Chat

open Subtle.Firestore Subtle.Lib Subtle.Auth

/-! ### The devices and the lists -/

/-- The accounts and the profiles, with the form that each account was created with, and the
sign-ups of all devices. -/
structure Directory where
  accounts : List Account
  users : String → Option Document
  forms : String → Option Form
  signUps : Session.SignUps

inductive Member where
  | device (c : Config Session Auth.Op)
  | chatList (c : Config NamedList Lookup)

/-- What joins: the app is launched, or a chat list opened. -/
inductive Member.New where
  | device (authUser : Option String)
  | chatList (sender : Option String)

inductive Member.Event where
  | device (e : Lib.Event Auth.Call Auth.Reply)
  | chatList (e : Lib.Event NameCall Bool)

namespace Directory

/-- A session on the accounts and profiles that are there. -/
def session (d : Directory) (s : Session) : Session :=
  { s with accounts := d.accounts, users := d.users }

/-- The record after the answer to an operation of a device. -/
def note (d : Directory) : Auth.Op → Auth.Reply → String → Option Form
  | .createUser email password firstName lastName university, .created uid _ =>
      Function.update d.forms uid (some ⟨email, password, firstName, lastName, university⟩)
  | _, _ => d.forms

/-- The record after an event at a device. -/
def noteEvent (d : Directory) (pending : List Auth.Op) :
    Lib.Event Auth.Call Auth.Reply → String → Option Form
  | .answer k r => (pending[k]?).elim d.forms fun op => d.note op r
  | .call _ => d.forms

end Directory

namespace Member

def init : New → Member
  | .device authUser => .device ⟨.launch authUser [] fun _ => none, []⟩
  | .chatList sender => .chatList ⟨.start sender fun _ => none, []⟩

/-- A step of a device or a list, on the accounts and profiles that are there.  Nobody but
`register` writes profiles. -/
def act (d : Directory) : Member → Event → Option (Directory × Member)
  | .device _, .device (.call (.write _ _)) => none
  | .device c, .device e =>
      (Session.registering.step ⟨(d.session c.core, d.signUps), c.pending⟩ e).map fun c' =>
        (⟨c'.core.1.accounts, c'.core.1.users, d.noteEvent c.pending e, c'.core.2⟩,
          .device ⟨c'.core.1, c'.pending⟩)
  | .chatList _, .chatList (.call (.write _ _)) => none
  | .chatList c, .chatList e =>
      (names.step ⟨{ c.core with users := d.users }, c.pending⟩ e).map fun c' => (d, .chatList c')
  | _, _ => none

end Member

def people : Machine (Serving Directory Member)
    (Serving.Event Empty Member.New Member.Event) :=
  Machine.serving ⟨fun _ e => e.elim⟩ Member.init Member.act

/-! ### What is in order -/

/-- The accounts and the profiles are in order. -/
structure Directory.Registered (old : List Account) (d : Directory) : Prop where
  uids : (d.accounts.map Account.uid).Nodup
  emails : (d.accounts.map Account.email).Nodup
  placeholder : College.dummyCollege ∈ d.signUps.offered
  forms : ∀ {uid form}, d.forms uid = some form → uid ∈ d.accounts.map Account.uid
  accounts : ∀ account ∈ d.accounts, account ∈ old ∨ ∃ form, d.forms account.uid = some form ∧
    d.signUps.Asks form account.uid account
  users : ∀ {uid document}, d.users uid = some document →
    ∃ form, d.forms uid = some form ∧ document = (form.profile uid).encode

/-- Accounts, forms and profiles stay as they are. -/
structure Directory.Grows (d d' : Directory) : Prop where
  accounts : d.accounts ⊆ d'.accounts
  uids : (d'.accounts.map Account.uid).Nodup
  emails : (d'.accounts.map Account.email).Nodup
  forms : ∀ {uid form}, d.forms uid = some form → d'.forms uid = some form
  users : ∀ {uid document}, d.users uid = some document → d'.users uid = some document
  signUps : d.signUps.Extends d'.signUps

/-- The user is the one of the form that the account of `uid` was created with. -/
def Directory.Profile (d : Directory) (uid : String) (user : User) : Prop :=
  ∃ form, d.forms uid = some form ∧ user = form.profile uid

/-- A profile that is on its way is the one of a form, or a stored one. -/
def Directory.Stands (d : Directory) : Auth.Op → Prop
  | .setData uid user => d.Profile uid user
  | .response uid (some document) => d.users uid = some document
  | _ => True

/-- The user of a device has the profile of a form, and so have those that are on their way. -/
structure Device (d : Directory) (s : Session) (ops : List Auth.Op) : Prop where
  ops : ∀ op ∈ ops, d.Stands op
  current : ∀ {user}, s.currentUser = some user → ∃ uid, d.Profile uid user

/-- A list has read a stored profile, and shows the names of stored ones. -/
structure Named (d : Directory) (c : Config NamedList Lookup) : Prop where
  reads : ∀ {uid document}, .response uid (some document) ∈ c.pending →
    d.users uid = some document
  names : ∀ {uid fullName}, c.core.idToUserNames uid = some fullName →
    ∃ document, d.users uid = some document ∧ nameFromDocument uid (some document) = some fullName

/-- A device or list is in order. -/
def Member.Orderly (d : Directory) : Member → Prop
  | .device c => Session.Followed d.accounts (d.session c.core, d.signUps) c.pending ∧
      Device d c.core c.pending
  | .chatList c => Named d c

variable {d d' : Directory} {old : List Account} {s s' : Session} {p : Session.SignUps}
  {op : Auth.Op} {pre post ops new : List Auth.Op}

theorem Directory.Registered.refl (h : d.Registered old) : d.Grows d :=
  ⟨List.Subset.refl _, h.uids, h.emails, id, id, .rfl⟩

theorem Directory.Profile.mono {uid : String} {user : User} (h : d.Profile uid user)
    (hgrows : d.Grows d') : d'.Profile uid user := by
  obtain ⟨form, hform, hprofile⟩ := h
  exact ⟨form, hgrows.forms hform, hprofile⟩

theorem Directory.Stands.mono (h : d.Stands op) (hgrows : d.Grows d') : d'.Stands op := by
  cases op with
  | setData uid user => exact Directory.Profile.mono h hgrows
  | response uid document =>
    cases document with
    | none => trivial
    | some document => exact hgrows.users h
  | signIn | getDocument | createUser | fetchColleges => trivial

theorem Device.mono (h : Device d s ops) (hgrows : d.Grows d') : Device d' s ops := by
  refine ⟨fun op hop => (h.ops op hop).mono hgrows, fun huser => ?_⟩
  obtain ⟨uid, hprofile⟩ := h.current huser
  exact ⟨uid, hprofile.mono hgrows⟩

theorem Named.mono {c : Config NamedList Lookup} (h : Named d c) (hgrows : d.Grows d') :
    Named d' c := by
  refine ⟨fun hop => hgrows.users (h.reads hop), fun hname => ?_⟩
  obtain ⟨document, hstored, hdecode⟩ := h.names hname
  exact ⟨document, hgrows.users hstored, hdecode⟩

/-- What forms say is kept when others sign up. -/
theorem followed_mono (h : Session.Followed old (s, p) ops) (hp : p.Extends d.signUps)
    (haccounts : s.accounts ⊆ d.accounts) (huids : (d.accounts.map Account.uid).Nodup)
    (hemails : (d.accounts.map Account.email).Nodup) :
    Session.Followed d.accounts (d.session s, d.signUps) ops :=
  ⟨hp.offered h.selected, fun _ hcollege => hp.offered (h.list hcollege),
    fun op hop => Session.follows_mono (h.outstanding op hop) hp haccounts,
    fun _ haccount => Or.inl haccount, huids, hemails, h.once⟩

theorem Member.Orderly.mono {b : Member} (h : b.Orderly d) (hgrows : d.Grows d') :
    b.Orderly d' := by
  cases b with
  | device c =>
    have hfollowed : Session.Followed d'.accounts (d'.session (d.session c.core), d'.signUps)
        c.pending :=
      followed_mono h.1 hgrows.signUps hgrows.accounts hgrows.uids hgrows.emails
    exact ⟨hfollowed, h.2.mono hgrows⟩
  | chatList c => exact Named.mono h hgrows

/-! ### What a device does -/

/-- **A call leaves the accounts and profiles as they are**, and logs out at most. -/
theorem device_call {x : Auth.Call} (hx : ∀ uid document, x ≠ .write uid document)
    (h : Device d s ops) (hcall : (d.session s).call x = some (s', new)) :
    s'.accounts = d.accounts ∧ s'.users = d.users ∧ Device d s' (ops ++ new) := by
  have hops : (∀ op ∈ new, d.Stands op) → ∀ op ∈ ops ++ new, d.Stands op := by
    intro hnew op hop
    rcases List.mem_append.mp hop with hop | hop
    · exact h.ops op hop
    · exact hnew op hop
  cases x with
  | write uid document => exact absurd rfl (hx uid document)
  | login email password =>
    obtain ⟨rfl, rfl⟩ := Prod.mk.inj (Option.some.inj hcall)
    refine ⟨rfl, rfl, hops fun op hop => ?_, h.current⟩
    obtain rfl := List.mem_singleton.mp hop
    trivial
  | fill email firstName lastName password =>
    obtain ⟨rfl, rfl⟩ := Prod.mk.inj (Option.some.inj hcall)
    exact ⟨rfl, rfl, hops (List.forall_mem_nil _), h.current⟩
  | select university =>
    obtain ⟨-, heq⟩ := Option.ite_none_right_eq_some.mp hcall
    obtain ⟨rfl, rfl⟩ := Prod.mk.inj (Option.some.inj heq)
    exact ⟨rfl, rfl, hops (List.forall_mem_nil _), h.current⟩
  | register =>
    obtain ⟨rfl, rfl⟩ := Prod.mk.inj (Option.some.inj hcall)
    refine ⟨rfl, rfl, hops fun op hop => ?_, h.current⟩
    unfold Session.register at hop
    split at hop
    · obtain rfl := List.mem_singleton.mp hop
      trivial
    · exact absurd hop List.not_mem_nil
  | logout signsOut =>
    obtain ⟨rfl, rfl⟩ := Prod.mk.inj (Option.some.inj hcall)
    cases signsOut with
    | true =>
      exact ⟨rfl, rfl, hops (List.forall_mem_nil _),
        fun huser => absurd huser (Option.some_ne_none _).symm⟩
    | false => exact ⟨rfl, rfl, hops (List.forall_mem_nil _), h.current⟩
  | getUniversities =>
    obtain ⟨rfl, rfl⟩ := Prod.mk.inj (Option.some.inj hcall)
    refine ⟨rfl, rfl, hops fun op hop => ?_, h.current⟩
    obtain rfl := List.mem_singleton.mp hop
    trivial

theorem registered_extend (h : d.Registered old) (hp : d.signUps.Extends p)
    (hd' : d' = { d with signUps := p }) : d'.Registered old ∧ d.Grows d' := by
  subst hd'
  refine ⟨⟨h.uids, h.emails, hp.offered h.placeholder, h.forms, fun account haccount => ?_,
    h.users⟩, List.Subset.refl _, h.uids, h.emails, id, id, hp⟩
  refine (h.accounts account haccount).imp_right ?_
  rintro ⟨form, hform, hasks⟩
  exact ⟨form, hform, hasks.mono hp⟩

theorem registered_create (h : d.Registered old) {form : Form} {uid : String}
    (hasks : d.signUps.Asks form uid (form.account uid))
    (huids : ((form.account uid :: d.accounts).map Account.uid).Nodup)
    (hemails : ((form.account uid :: d.accounts).map Account.email).Nodup)
    (hd' : d' = ⟨form.account uid :: d.accounts, d.users,
      Function.update d.forms uid (some form), d.signUps⟩) :
    d'.Registered old ∧ d.Grows d' ∧ d'.Profile uid (form.profile uid) := by
  subst hd'
  have hfresh : uid ∉ d.accounts.map Account.uid := (List.nodup_cons.mp huids).1
  have hforms : ∀ {uid' form'}, d.forms uid' = some form' →
      Function.update d.forms uid (some form) uid' = some form' := by
    intro uid' form' hform
    have hne : uid' ≠ uid := fun heq => hfresh (heq ▸ h.forms hform)
    exact (Function.update_of_ne hne _ _).trans hform
  have hself : Function.update d.forms uid (some form) uid = some form :=
    Function.update_self _ _ _
  refine ⟨⟨huids, hemails, h.placeholder, fun {uid' form'} hform => ?_,
    fun account haccount => ?_, fun hstored => ?_⟩,
    ⟨List.subset_cons_self _ _, huids, hemails, hforms, id, .rfl⟩, form, hself, rfl⟩
  · by_cases hsame : uid' = uid
    · exact hsame ▸ List.mem_cons_self
    · exact List.mem_cons_of_mem _ (h.forms ((Function.update_of_ne hsame _ _).symm.trans hform))
  · rcases List.mem_cons.mp haccount with rfl | haccount
    · exact Or.inr ⟨form, hself, hasks⟩
    · refine (h.accounts account haccount).imp_right ?_
      rintro ⟨form', hform, hasks'⟩
      exact ⟨form', hforms hform, hasks'⟩
  · obtain ⟨form', hform, hdocument⟩ := h.users hstored
    exact ⟨form', hforms hform, hdocument⟩

theorem registered_store (h : d.Registered old) {uid : String} {user : User}
    (hprofile : d.Profile uid user)
    (hd' : d' = ⟨d.accounts, Function.update d.users uid (some user.encode), d.forms,
      d.signUps⟩) :
    d'.Registered old ∧ d.Grows d' := by
  subst hd'
  obtain ⟨form, hform, rfl⟩ := hprofile
  have hself : Function.update d.users uid (some (form.profile uid).encode) uid =
      some (form.profile uid).encode := Function.update_self _ _ _
  refine ⟨⟨h.uids, h.emails, h.placeholder, h.forms, h.accounts,
    fun {uid' document} hstored => ?_⟩, ⟨List.Subset.refl _, h.uids, h.emails, id,
      fun {uid' document} hstored => ?_, .rfl⟩⟩
  · by_cases hsame : uid' = uid
    · subst hsame
      exact ⟨form, hform, (Option.some.inj (hself.symm.trans hstored)).symm⟩
    · exact h.users ((Function.update_of_ne hsame _ _).symm.trans hstored)
  · by_cases hsame : uid' = uid
    · -- a stored profile is the one of the form already
      subst hsame
      obtain ⟨form', hform', rfl⟩ := h.users hstored
      obtain rfl := Option.some.inj (hform.symm.trans hform')
      exact hself
    · exact (Function.update_of_ne hsame _ _).trans hstored

/-- The directory is told of another list of colleges. -/
theorem registered_offer (h : d.Registered old) (response : List College)
    (hd' : d' = { d with
      signUps := { d.signUps with offered := d.signUps.offered ++ response } }) :
    d'.Registered old ∧ d.Grows d' := by
  subst hd'
  have hextend : d.signUps.Extends { d.signUps with offered := d.signUps.offered ++ response } :=
    ⟨List.subset_append_left _ _, List.Subset.refl _⟩
  exact registered_extend h hextend rfl

/-- **An answer keeps the accounts and profiles in order**, and the device. -/
theorem device_answer {c : Session × Session.SignUps} {r : Auth.Reply} (h : d.Registered old)
    (hfollowed : Session.Followed d.accounts (d.session s, d.signUps) (pre ++ op :: post))
    (hdevice : Device d s (pre ++ op :: post))
    (hanswer : Session.registering.answer (d.session s, d.signUps) op r = some (c, new))
    (hd' : d' = ⟨c.1.accounts, c.1.users, d.note op r, c.2⟩) :
    d'.Registered old ∧ d.Grows d' ∧ Device d' c.1 (pre ++ post ++ new) := by
  have hstands : ∀ {op' : Auth.Op}, op' ∈ pre ++ op :: post → d.Stands op' :=
    fun hop => hdevice.ops _ hop
  have hkept : ∀ {d' : Directory}, d.Grows d' → (∀ op ∈ new, d'.Stands op) →
      ∀ op ∈ pre ++ post ++ new, d'.Stands op := by
    intro d' hgrows hnew op' hop
    rcases List.mem_append.mp hop with hop | hop
    · exact (hstands (Service.mem_pending_iff.mpr (Or.inr hop))).mono hgrows
    · exact hnew op' hop
  have hop : d.Stands op := hstands (Service.mem_pending_iff.mpr (Or.inl rfl))
  obtain ⟨s', p⟩ := c
  obtain ⟨hnote, hx⟩ := Service.watched_answer hanswer
  cases Session.answered_of_answer hx with
  | failed op err hne =>
    obtain rfl : d.signUps = p := by
      cases op with
      | fetchColleges => exact absurd rfl hne
      | signIn | getDocument | response | createUser | setData => exact Option.some.inj hnote
    have hforms : d.note op (.error err) = d.forms := by cases op <;> rfl
    obtain rfl : d' = d := hd'.trans (by rw [hforms]; rfl)
    exact ⟨h, h.refl, hkept h.refl (List.forall_mem_nil _), hdevice.current⟩
  | signedIn email password account haccount =>
    obtain rfl : d.signUps = p := Option.some.inj hnote
    obtain rfl : d' = d := hd'
    refine ⟨h, h.refl, hkept h.refl fun op hop => ?_, hdevice.current⟩
    obtain rfl := List.mem_singleton.mp hop
    trivial
  | read uid =>
    obtain rfl : d.signUps = p := Option.some.inj hnote
    obtain rfl : d' = d := hd'
    refine ⟨h, h.refl, hkept h.refl fun op hop => ?_, hdevice.current⟩
    obtain rfl := List.mem_singleton.mp hop
    show d'.Stands (.response uid (d'.users uid))
    cases hstored : d'.users uid with
    | none => trivial
    | some document => exact hstored
  | arrived uid document =>
    obtain rfl : d.signUps = p := Option.some.inj hnote
    cases document with
    | none =>
      obtain rfl : d' = d := hd'
      exact ⟨h, h.refl, hkept h.refl (List.forall_mem_nil _),
        fun huser => absurd huser (Option.some_ne_none _).symm⟩
    | some document =>
      obtain ⟨form, hform, rfl⟩ := h.users hop
      obtain rfl : d' = d := hd'
      refine ⟨h, h.refl, hkept h.refl (List.forall_mem_nil _), fun huser => ?_⟩
      obtain rfl := Option.some.inj huser
      exact ⟨uid, form, hform, rfl⟩
  | registered email password firstName lastName university uid =>
    obtain rfl : d.signUps = p := Option.some.inj hnote
    obtain ⟨hfresh, -⟩ := Option.ite_none_left_eq_some.mp hx
    obtain ⟨hcreated, -, hasks⟩ := Session.followed_created hfollowed hfresh
    obtain ⟨h', hgrows, hprofile⟩ :=
      registered_create h hasks hcreated.uids hcreated.emails hd'
    refine ⟨h', hgrows, hkept hgrows fun op hop => ?_, fun huser => ?_⟩
    · obtain rfl := List.mem_singleton.mp hop
      exact hprofile
    · obtain rfl := Option.some.inj huser
      exact ⟨uid, hprofile⟩
  | unencoded email password firstName lastName university uid =>
    obtain rfl : d.signUps = p := Option.some.inj hnote
    obtain ⟨hfresh, -⟩ := Option.ite_none_left_eq_some.mp hx
    obtain ⟨hcreated, -, hasks⟩ := Session.followed_created hfollowed hfresh
    obtain ⟨h', hgrows, -⟩ := registered_create h hasks hcreated.uids hcreated.emails hd'
    exact ⟨h', hgrows, hkept hgrows (List.forall_mem_nil _), (hdevice.mono hgrows).current⟩
  | stored uid user =>
    obtain rfl : d.signUps = p := Option.some.inj hnote
    obtain ⟨h', hgrows⟩ := registered_store h hop hd'
    exact ⟨h', hgrows, hkept hgrows (List.forall_mem_nil _), (hdevice.mono hgrows).current⟩
  | fetched response =>
    obtain rfl := Option.some.inj hnote
    obtain ⟨h', hgrows⟩ := registered_offer h response hd'
    exact ⟨h', hgrows, hkept hgrows (List.forall_mem_nil _), (hdevice.mono hgrows).current⟩
  | unfetched err =>
    obtain rfl := Option.some.inj hnote
    obtain ⟨h', hgrows⟩ := registered_offer h [⟨err, "error.edu"⟩] hd'
    exact ⟨h', hgrows, hkept hgrows (List.forall_mem_nil _), (hdevice.mono hgrows).current⟩

/-- What a device does keeps everything in order. -/
theorem device_act {c : Config Session Auth.Op} {c' : Config (Session × Session.SignUps) Auth.Op}
    {e : Lib.Event Auth.Call Auth.Reply} (h : d.Registered old)
    (hc : Member.Orderly d (.device c)) (he : ∀ uid document, e ≠ .call (.write uid document))
    (hstep : Session.registering.step ⟨(d.session c.core, d.signUps), c.pending⟩ e = some c')
    (hd' : d' = ⟨c'.core.1.accounts, c'.core.1.users, d.noteEvent c.pending e, c'.core.2⟩) :
    d'.Registered old ∧ d.Grows d' ∧ Member.Orderly d' (.device ⟨c'.core.1, c'.pending⟩) := by
  obtain ⟨s, pending⟩ := c
  obtain ⟨hfollowed, hdevice⟩ := hc
  rcases Service.step_cases hstep with ⟨x, p, new, rfl, hx, rfl⟩ |
    ⟨pre, op, post, r, p, new, rfl, hp, hx, rfl⟩
  · obtain ⟨s', p⟩ := p
    obtain ⟨hnote, hcall⟩ := Service.watched_call hx
    have hne : ∀ uid document, x ≠ .write uid document :=
      fun uid document heq => he uid document (heq ▸ rfl)
    obtain ⟨haccounts, husers, hdevice'⟩ := device_call hne hdevice hcall
    have hfollowed' := Session.followed_call hfollowed hx
    have hd'' : d' = { d with signUps := p } := by
      rw [hd']
      show Directory.mk s'.accounts s'.users d.forms p = _
      rw [haccounts, husers]
    obtain ⟨h', hgrows⟩ := registered_extend h (Session.SignUps.extends_noteCall hnote) hd''
    have hsub : s'.accounts ⊆ d'.accounts := hd' ▸ List.Subset.refl _
    have hsignUps : p.Extends d'.signUps := hd' ▸ .rfl
    exact ⟨h', hgrows, followed_mono hfollowed' hsignUps hsub h'.uids h'.emails,
      hdevice'.mono hgrows⟩
  · have hpending : pending = pre ++ op :: post := hp
    subst hpending
    have hforms : d.noteEvent (pre ++ op :: post) (.answer pre.length r) = d.note op r := by
      simp [Directory.noteEvent]
    obtain ⟨h', hgrows, hdevice'⟩ := device_answer h hfollowed hdevice hx (hforms ▸ hd')
    have hfollowed' := Session.followed_answer hfollowed hx
    have hsub : p.1.accounts ⊆ d'.accounts := hd' ▸ List.Subset.refl _
    have hsignUps : p.2.Extends d'.signUps := hd' ▸ .rfl
    exact ⟨h', hgrows, followed_mono hfollowed' hsignUps hsub h'.uids h'.emails, hdevice'⟩

/-! ### What a list does -/

theorem response_notMem_lookups {id uid : String} {idToUserNames : String → Option String}
    {changes : List (Change String Fields)} {document : Option Document} :
    Lookup.response uid document ∉ changes.filterMap (NamedList.lookup id idToUserNames) := by
  intro hop
  obtain ⟨change, -, hlookup⟩ := List.mem_filterMap.mp hop
  obtain ⟨message, -, hlookup⟩ := Option.bind_eq_some_iff.mp hlookup
  obtain ⟨-, heq⟩ := Option.ite_none_right_eq_some.mp hlookup
  exact absurd heq (by simp)

/-- What a list does keeps it in order. -/
theorem list_act {c c' : Config NamedList Lookup} {e : Lib.Event NameCall Bool} (hc : Named d c)
    (he : ∀ uid document, e ≠ .call (.write uid document))
    (hstep : names.step ⟨{ c.core with users := d.users }, c.pending⟩ e = some c') :
    Named d c' := by
  obtain ⟨s, pending⟩ := c
  rcases Service.step_cases hstep with ⟨x, s', new, rfl, hx, rfl⟩ |
    ⟨pre, op, post, ok, s', new, rfl, hp, hx, rfl⟩
  · cases x with
    | write uid document => exact absurd rfl (he uid document)
    | snapshot changes =>
      obtain ⟨id, -, heq⟩ := Option.map_eq_some_iff.mp hx
      obtain ⟨rfl, rfl⟩ := Prod.mk.inj heq
      refine ⟨fun hop => ?_, hc.names⟩
      rcases List.mem_append.mp hop with hop | hop
      · exact hc.reads hop
      · exact absurd hop response_notMem_lookups
  · have hpending : pending = pre ++ op :: post := hp
    subst hpending
    have hold : ∀ {uid document}, .response uid (some document) ∈ pre ++ post →
        d.users uid = some document :=
      fun hop => hc.reads (Service.mem_pending_iff.mpr (Or.inr hop))
    rcases answer_cases hx with ⟨rfl, rfl⟩ | ⟨id, rfl, rfl, rfl⟩ |
      ⟨id, document, fullName, rfl, hname, rfl, rfl⟩
    · refine ⟨fun hop => ?_, hc.names⟩
      rw [List.append_nil] at hop
      exact hold hop
    · refine ⟨fun hop => ?_, hc.names⟩
      rcases List.mem_append.mp hop with hop | hop
      · exact hold hop
      · obtain ⟨rfl, hstored⟩ := Lookup.response.inj (List.mem_singleton.mp hop)
        exact hstored.symm
    · refine ⟨fun hop => ?_, fun {uid fullName'} hshown => ?_⟩
      · rw [List.append_nil] at hop
        exact hold hop
      · by_cases hsame : uid = id
        · subst hsame
          obtain rfl : fullName = fullName' :=
            Option.some.inj ((Function.update_self uid _ _).symm.trans hshown)
          cases document with
          | none => exact absurd hname (Option.some_ne_none _).symm
          | some document =>
            exact ⟨document, hc.reads (Service.mem_pending_iff.mpr (Or.inl rfl)), hname⟩
        · exact hc.names ((Function.update_of_ne hsame _ _).symm.trans hshown)

/-! ### Over whole runs -/

theorem orderly_act {b b' : Member} {e : Member.Event} (h : d.Registered old) (hb : b.Orderly d)
    (hact : Member.act d b e = some (d', b')) :
    d'.Registered old ∧ d.Grows d' ∧ b'.Orderly d' := by
  cases b with
  | device c =>
    cases e with
    | device e =>
      by_cases he : ∃ uid document, e = .call (.write uid document)
      · obtain ⟨uid, document, rfl⟩ := he
        exact absurd hact (Option.some_ne_none _).symm
      · have hne : ∀ uid document, e ≠ .call (.write uid document) :=
          fun uid document heq => he ⟨uid, document, heq⟩
        rw [Member.act] at hact
        · obtain ⟨c', hstep, heq⟩ := Option.map_eq_some_iff.mp hact
          obtain ⟨rfl, rfl⟩ := Prod.mk.inj heq
          exact device_act h hb hne hstep rfl
        · exact hne
    | chatList e => exact absurd hact (Option.some_ne_none _).symm
  | chatList c =>
    cases e with
    | device e => exact absurd hact (by simp [Member.act])
    | chatList e =>
      by_cases he : ∃ uid document, e = .call (.write uid document)
      · obtain ⟨uid, document, rfl⟩ := he
        exact absurd hact (Option.some_ne_none _).symm
      · have hne : ∀ uid document, e ≠ .call (.write uid document) :=
          fun uid document heq => he ⟨uid, document, heq⟩
        rw [Member.act] at hact
        · obtain ⟨c', hstep, heq⟩ := Option.map_eq_some_iff.mp hact
          obtain ⟨rfl, rfl⟩ := Prod.mk.inj heq
          exact ⟨h, h.refl, list_act hb hne hstep⟩
        · exact hne

/-- A device that is launched, or a list that is opened, is in order. -/
theorem orderly_init (h : d.Registered old) (n : Member.New) : (Member.init n).Orderly d := by
  cases n with
  | device authUser =>
    have hlist : ∀ college ∈ [College.dummyCollege], college ∈ d.signUps.offered := by
      intro college hcollege
      obtain rfl := List.mem_singleton.mp hcollege
      exact h.placeholder
    exact ⟨⟨h.placeholder, hlist, List.forall_mem_nil _,
      fun account haccount => Or.inl haccount, h.uids, h.emails, List.nodup_nil⟩,
      List.forall_mem_nil _, fun huser => absurd huser (Option.some_ne_none _).symm⟩
  | chatList sender =>
    exact ⟨fun hop => absurd hop List.not_mem_nil,
      fun hname => absurd hname (Option.some_ne_none _).symm⟩

theorem orderly_run {d₀ : Directory} (hd₀ : d₀.Registered old)
    {es : List (Serving.Event Empty Member.New Member.Event)} {t : Serving Directory Member}
    (hrun : people.run ⟨d₀, []⟩ es = some t) :
    t.core.Registered old ∧ ∀ b ∈ t.clients, b.Orderly t.core := by
  have hsteps : people.Along (Serving.OnStep (fun _ _ => True) fun _ _ _ => True) ⟨d₀, []⟩ es := by
    refine Machine.along_of_forall (fun s e => ?_) _ es
    cases e with
    | core e => exact e.elim
    | join n => trivial
    | act i o => exact fun _ _ => trivial
  refine Machine.serving_inv (I := Directory.Registered old) (J := fun d b => b.Orderly d)
    (E := Directory.Grows) ?_ ?_ ?_ ?_ hd₀ (List.forall_mem_nil _) hsteps hrun
  · exact fun _ e => e.elim
  · exact fun _ n h => orderly_init h n
  · exact fun _ _ _ _ _ h hb _ hact => orderly_act h hb hact
  · exact fun _ _ _ hgrows hb => hb.mono hgrows

/-- **Every new account is that of a form that was submitted and follows the rules, every
profile holds the data of the form of its account, and so does the user of every device**,
with any number of devices that sign up and log in. -/
theorem accounts_registered {d₀ : Directory} (hd₀ : d₀.Registered d₀.accounts)
    {es : List (Serving.Event Empty Member.New Member.Event)} {t : Serving Directory Member}
    (hrun : people.run ⟨d₀, []⟩ es = some t) :
    (t.core.accounts.map Account.uid).Nodup ∧ (t.core.accounts.map Account.email).Nodup ∧
    (∀ account ∈ t.core.accounts, account ∈ d₀.accounts ∨ ∃ form ∈ t.core.signUps.forms,
      t.core.forms account.uid = some form ∧ form.Rules t.core.signUps.offered ∧
        account = form.account account.uid) ∧
    (∀ uid document, t.core.users uid = some document →
      ∃ form, t.core.forms uid = some form ∧ document = (form.profile uid).encode) ∧
    ∀ c, .device c ∈ t.clients → ∀ user, c.core.currentUser = some user →
      ∃ account ∈ t.core.accounts, ∃ form, t.core.forms account.uid = some form ∧
        user = form.profile account.uid := by
  obtain ⟨h, hclients⟩ := orderly_run hd₀ hrun
  refine ⟨h.uids, h.emails, fun account haccount => ?_, fun _ _ => h.users,
    fun c hc user huser => ?_⟩
  · refine (h.accounts account haccount).imp_right ?_
    rintro ⟨form, hform, hsubmitted, hrules, heq⟩
    exact ⟨form, hsubmitted, hform, hrules, heq⟩
  · obtain ⟨-, hdevice⟩ := hclients _ hc
    obtain ⟨uid, form, hform, hprofile⟩ := hdevice.current huser
    obtain ⟨account, haccount, rfl⟩ := List.mem_map.mp (h.forms hform)
    exact ⟨account, haccount, form, hform, hprofile⟩

/-- **A name in a chat list is the one in the profile that is stored now**, which is the one
of the form, although a list looks a name up only once. -/
theorem names_current {d₀ : Directory} (hd₀ : d₀.Registered d₀.accounts)
    {es : List (Serving.Event Empty Member.New Member.Event)} {t : Serving Directory Member}
    (hrun : people.run ⟨d₀, []⟩ es = some t) {c : Config NamedList Lookup}
    (hc : .chatList c ∈ t.clients) {uid fullName : String}
    (hname : c.core.idToUserNames uid = some fullName) :
    ∃ form, t.core.forms uid = some form ∧
      t.core.users uid = some (form.profile uid).encode ∧
      fullName = (form.profile uid).fullName := by
  obtain ⟨h, hclients⟩ := orderly_run hd₀ hrun
  have hnamed : Named t.core c := hclients _ hc
  obtain ⟨document, hstored, hdecode⟩ := hnamed.names hname
  obtain ⟨form, hform, rfl⟩ := h.users hstored
  obtain rfl :=
    Option.some.inj ((fullName_setData uid (form.profile uid)).symm.trans hdecode)
  exact ⟨form, hform, hstored, rfl⟩

/-! ### Ann signs up -/

/-- Only Bob has an account, and no profile. -/
def bobsDirectory : Directory :=
  ⟨[⟨"bob", "bob@duke.edu", "hunter2"⟩], fun _ => none, fun _ => none, .empty⟩

theorem bobsDirectory_registered : bobsDirectory.Registered bobsDirectory.accounts :=
  ⟨by decide, by decide, List.mem_singleton.mpr rfl,
    fun hform => absurd hform (Option.some_ne_none _).symm, fun _ haccount => Or.inl haccount,
    fun hstored => absurd hstored (Option.some_ne_none _).symm⟩

/-- Ann has written to Bob. -/
def annsChat : Fields :=
  [("senderId", .string "ann"), ("receiverId", .string "bob"), ("text", .string "hi"),
    ("time", .timestamp 1)]

/-- Ann signs up, and Bob's list has a chat with her. -/
def annSignsUp : List (Serving.Event Empty Member.New Member.Event) :=
  [.join (.device none), .join (.chatList (some "bob")),
    .act 0 (.device (.call .getUniversities)),
    .act 0 (.device (.answer 0 (.colleges [⟨"Duke University", "duke.edu"⟩]))),
    .act 0 (.device (.call (.select ⟨"Duke University", "duke.edu"⟩))),
    .act 0 (.device (.call (.fill "ann@duke.edu" "Ann" "Lee" "secret"))),
    .act 0 (.device (.call .register)), .act 0 (.device (.answer 0 (.created "ann" true))),
    .act 0 (.device (.answer 0 .ok)),
    .act 1 (.chatList (.call (.snapshot [⟨.added, "ann", annsChat⟩]))),
    .act 1 (.chatList (.answer 0 true)), .act 1 (.chatList (.answer 0 true))]

def annsUser : User := ⟨some "ann", "Ann", "Lee", "ann@duke.edu", "Duke University"⟩

theorem annSignsUp_run : ∃ t p c, people.run ⟨bobsDirectory, []⟩ annSignsUp = some t ∧
    t.clients = [.device p, .chatList c] ∧ p.core.currentUser = some annsUser ∧
    c.core.idToUserNames "ann" = some "Ann Lee" :=
  ⟨_, _, _, rfl, rfl, rfl, rfl⟩

theorem accounts_registered_example : ∃ t p c,
    people.run ⟨bobsDirectory, []⟩ annSignsUp = some t ∧ t.clients = [.device p, .chatList c] ∧
    ∃ account ∈ t.core.accounts, ∃ form, t.core.forms account.uid = some form ∧
      annsUser = form.profile account.uid := by
  obtain ⟨t, p, c, hrun, hclients, huser, -⟩ := annSignsUp_run
  obtain ⟨-, -, -, -, hdevices⟩ := accounts_registered bobsDirectory_registered hrun
  exact ⟨t, p, c, hrun, hclients, hdevices p (by simp [hclients]) annsUser huser⟩

theorem names_current_example : ∃ t p c,
    people.run ⟨bobsDirectory, []⟩ annSignsUp = some t ∧ t.clients = [.device p, .chatList c] ∧
    ∃ form, t.core.forms "ann" = some form ∧
      t.core.users "ann" = some (form.profile "ann").encode ∧
      "Ann Lee" = (form.profile "ann").fullName := by
  obtain ⟨t, p, c, hrun, hclients, -, hname⟩ := annSignsUp_run
  exact ⟨t, p, c, hrun, hclients,
    names_current bobsDirectory_registered hrun (by simp [hclients]) hname⟩

end Subtle.Chat
