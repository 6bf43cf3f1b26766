import Subtle.Auth.Form
import Subtle.Lib.Machine

/-!
# The session of the app

Signing in, reading the profile and entering the app are three steps, and the app
takes each when the backend answers the one before, whatever has happened since.
Registration and logout set the signed-in user and the profile together.

* `session`: the service.  Other clients may write the profiles at any time.
* `identity_iff`: **whoever is logged in has the profile of the signed-in user,
  throughout a run, exactly when every answer of the run keeps them together**.
-/

namespace Subtle.Auth

open Subtle.Firestore Subtle.Lib

/-- An account of the authentication backend. -/
structure Account where
  uid : String
  email : String
  password : String
  deriving DecidableEq

/-- A backend operation, with what its handler needs. -/
inductive Op where
  | signIn (email password : String)
  | getDocument (uid : String)
  | response (uid : String) (document : Option Document)
  | createUser (email password firstName lastName university : String)
  | setData (uid : String) (newUser : User)
  | fetchColleges

/-- The answer of the backend.  The profile of a new account may fail to encode. -/
inductive Reply where
  | ok
  | error (localizedDescription : String)
  | created (uid : String) (encodes : Bool)
  | colleges (response : List College)

/-- `authUser` is the signed-in user of the authentication backend. -/
structure Session where
  vm : AuthVM
  currentUser : Option User
  authUser : Option String
  accounts : List Account
  users : String → Option Document

/-- The app is launched, maybe with a user who is still signed in. -/
def Session.launch (authUser : Option String) (accounts : List Account)
    (users : String → Option Document) : Session :=
  ⟨AuthVM.init, none, authUser, accounts, users⟩

inductive Call where
  | login (email password : String)
  | fill (email firstName lastName password : String)
  | select (university : College)
  | register
  /-- `signOut` throws or not. -/
  | logout (signsOut : Bool)
  | getUniversities
  /-- Another client writes or deletes a profile. -/
  | write (uid : String) (document : Option Document)

namespace Session

def login (email password : String) : List Op := [.signIn email password]

def register (vm : AuthVM) : List Op :=
  if vm.formIsValid then
    [.createUser vm.email vm.password vm.firstName vm.lastName vm.university.name]
  else []

def logout (s : Session) : Session :=
  { s with authUser := none, currentUser := none, vm := { s.vm with loggedIn := false } }

/-- The user of the app is set, and then `completion(true)` called. -/
def enter (s : Session) (currentUser : Option User) : Session :=
  { s with currentUser, vm := { s.vm with loggedIn := true } }

/-- The profile of `uid` reaches `login`.  `data(as:)` returns nil for a document that does
not exist, and throws where one does not decode. -/
def arrive (s : Session) (uid : String) : Option Document → Session
  | none => s.enter none
  | some document => (User.decode uid document).elim s fun user => s.enter (some user)

def call (s : Session) : Call → Option (Session × List Op)
  | .login email password => some (s, login email password)
  | .fill email firstName lastName password =>
      some ({ s with vm := { s.vm with email, firstName, lastName, password } }, [])
  | .select university =>
      -- the picker offers the list
      if university ∈ s.vm.universityList then
        some ({ s with vm := { s.vm with university } }, [])
      else none
  | .register =>
      let vm := { s.vm with firstSubmitAttempted := true }
      some ({ s with vm }, register vm)
  | .logout signsOut => some (if signsOut then s.logout else s, [])
  | .getUniversities => some (s, [.fetchColleges])
  | .write uid document => some ({ s with users := Function.update s.users uid document }, [])

/-- The account with these credentials. -/
def account (s : Session) (email password : String) : Option Account :=
  s.accounts.find? fun account => account.email = email ∧ account.password = password

/-- The profile of a new account. -/
def newUser (uid email firstName lastName university : String) : User :=
  { id := some uid, firstName, lastName, email, university }

def answer (s : Session) : Op → Reply → Option (Session × List Op)
  | .signIn email password, .ok => (s.account email password).map fun account =>
      ({ s with authUser := some account.uid }, [.getDocument account.uid])
  | .getDocument uid, .ok =>
      -- the document as of now, which may reach the app later
      some (s, [.response uid (s.users uid)])
  | .response uid document, .ok => some (s.arrive uid document, [])
  | .createUser email password firstName lastName university, .created uid encodes =>
      -- a new account has a new uid and a new address, and is signed in
      if s.accounts.any fun account => account.uid = uid ∨ account.email = email then none
      else
        let s := { s with accounts := ⟨uid, email, password⟩ :: s.accounts, authUser := some uid }
        let newUser := newUser uid email firstName lastName university
        some (if encodes then (s.enter (some newUser), [.setData uid newUser]) else (s, []))
  | .setData uid newUser, .ok =>
      some ({ s with users := Function.update s.users uid (some newUser.encode) }, [])
  | .fetchColleges, .colleges response =>
      some ({ s with vm := { s.vm with universityList := response } }, [])
  | .fetchColleges, .error localizedDescription =>
      some ({ s with
        vm := { s.vm with universityList := [⟨localizedDescription, "error.edu"⟩] } }, [])
  | .signIn .., .error _ | .getDocument .., .error _ | .createUser .., .error _
  | .setData .., .error _ => some (s, [])
  | _, _ => none

/-- The app over the authentication backend and the profiles. -/
def service : Service Session Call Op Reply := ⟨call, answer⟩

/-! ### What an answer can be -/

/-- **An answer and what it leads to**: the state after it and the operations that
its handler issues. -/
inductive Answered (s : Session) : Op → Reply → Session → List Op → Prop where
  | failed (op : Op) (localizedDescription : String) (hop : op ≠ .fetchColleges) :
      Answered s op (.error localizedDescription) s []
  | signedIn (email password : String) (account : Account)
      (haccount : s.account email password = some account) :
      Answered s (.signIn email password) .ok { s with authUser := some account.uid }
        [.getDocument account.uid]
  | read (uid : String) : Answered s (.getDocument uid) .ok s [.response uid (s.users uid)]
  | arrived (uid : String) (document : Option Document) :
      Answered s (.response uid document) .ok (s.arrive uid document) []
  | registered (email password firstName lastName university uid : String) :
      Answered s (.createUser email password firstName lastName university) (.created uid true)
        (enter { s with
          accounts := ⟨uid, email, password⟩ :: s.accounts, authUser := some uid }
          (some (newUser uid email firstName lastName university)))
        [.setData uid (newUser uid email firstName lastName university)]
  | unencoded (email password firstName lastName university uid : String) :
      Answered s (.createUser email password firstName lastName university) (.created uid false)
        { s with accounts := ⟨uid, email, password⟩ :: s.accounts, authUser := some uid } []
  | stored (uid : String) (user : User) :
      Answered s (.setData uid user) .ok
        { s with users := Function.update s.users uid (some user.encode) } []
  | fetched (response : List College) :
      Answered s .fetchColleges (.colleges response)
        { s with vm := { s.vm with universityList := response } } []
  | unfetched (localizedDescription : String) :
      Answered s .fetchColleges (.error localizedDescription)
        { s with vm := { s.vm with universityList := [⟨localizedDescription, "error.edu"⟩] } } []

theorem answered_of_answer {s s' : Session} {op : Op} {r : Reply} {new : List Op}
    (h : s.answer op r = some (s', new)) : Answered s op r s' new := by
  cases op with
  | signIn email password =>
    cases r with
    | ok =>
      obtain ⟨account, haccount, heq⟩ := Option.map_eq_some_iff.mp h
      obtain ⟨rfl, rfl⟩ := Prod.mk.inj heq
      exact .signedIn email password account haccount
    | error err =>
      obtain ⟨rfl, rfl⟩ := Prod.mk.inj (Option.some.inj h)
      exact .failed _ err nofun
    | created _ _ => exact absurd h (by simp [answer])
    | colleges _ => exact absurd h (by simp [answer])
  | getDocument uid =>
    cases r with
    | ok =>
      obtain ⟨rfl, rfl⟩ := Prod.mk.inj (Option.some.inj h)
      exact .read uid
    | error err =>
      obtain ⟨rfl, rfl⟩ := Prod.mk.inj (Option.some.inj h)
      exact .failed _ err nofun
    | created _ _ => exact absurd h (by simp [answer])
    | colleges _ => exact absurd h (by simp [answer])
  | response uid document =>
    cases r with
    | ok =>
      obtain ⟨rfl, rfl⟩ := Prod.mk.inj (Option.some.inj h)
      exact .arrived uid document
    | error _ => exact absurd h (by simp [answer])
    | created _ _ => exact absurd h (by simp [answer])
    | colleges _ => exact absurd h (by simp [answer])
  | createUser email password firstName lastName university =>
    cases r with
    | ok => exact absurd h (by simp [answer])
    | error err =>
      obtain ⟨rfl, rfl⟩ := Prod.mk.inj (Option.some.inj h)
      exact .failed _ err nofun
    | created uid encodes =>
      obtain ⟨-, heq⟩ := Option.ite_none_left_eq_some.mp h
      cases encodes with
      | true =>
        obtain ⟨rfl, rfl⟩ := Prod.mk.inj (Option.some.inj heq)
        exact .registered ..
      | false =>
        obtain ⟨rfl, rfl⟩ := Prod.mk.inj (Option.some.inj heq)
        exact .unencoded ..
    | colleges _ => exact absurd h (by simp [answer])
  | setData uid user =>
    cases r with
    | ok =>
      obtain ⟨rfl, rfl⟩ := Prod.mk.inj (Option.some.inj h)
      exact .stored uid user
    | error err =>
      obtain ⟨rfl, rfl⟩ := Prod.mk.inj (Option.some.inj h)
      exact .failed _ err nofun
    | created _ _ => exact absurd h (by simp [answer])
    | colleges _ => exact absurd h (by simp [answer])
  | fetchColleges =>
    cases r with
    | ok => exact absurd h (by simp [answer])
    | error err =>
      obtain ⟨rfl, rfl⟩ := Prod.mk.inj (Option.some.inj h)
      exact .unfetched err
    | created _ _ => exact absurd h (by simp [answer])
    | colleges response =>
      obtain ⟨rfl, rfl⟩ := Prod.mk.inj (Option.some.inj h)
      exact .fetched response

/-- The profile of a user arrives, or it does not decode. -/
theorem arrive_eq (s : Session) (uid : String) (document : Option Document) :
    s.arrive uid document = s ∨ ∃ currentUser, s.arrive uid document = s.enter currentUser := by
  cases document with
  | none => exact Or.inr ⟨none, rfl⟩
  | some document =>
    cases hdecode : User.decode uid document with
    | none => exact Or.inl (by rw [arrive, hdecode, Option.elim_none])
    | some user => exact Or.inr ⟨some user, by rw [arrive, hdecode, Option.elim_some]⟩

/-! ### Who is logged in -/

/-- Whoever is logged in is signed in, and the profile is theirs. -/
def Identity (s : Session) : Prop :=
  s.vm.loggedIn = true →
    ∃ uid user, s.authUser = some uid ∧ s.currentUser = some user ∧ user.id = some uid

/-- Whom an answer signs in, without the profile. -/
def signsIn (s : Session) : Op → Reply → Option String
  | .signIn email password, .ok => (s.account email password).map Account.uid
  | .createUser .., .created uid false => some uid
  | _, _ => none

/-- Whose profile an answer brings. -/
def brings : Op → Reply → Option String
  | .response uid document, .ok => (document.bind (User.decode uid)).map fun _ => uid
  | _, _ => none

/-- The profile that an answer brings does not exist. -/
def lacks : Op → Reply → Bool
  | .response _ none, .ok => true
  | _, _ => false

/-- A user is signed in only while nobody is logged in, or who is signed in already,
and a profile arrives only for the signed-in user, and exists. -/
def Together (s : Session) (op : Op) (r : Reply) : Prop :=
  (∀ uid ∈ s.signsIn op r, s.vm.loggedIn = true → s.authUser = some uid) ∧
    (∀ uid ∈ brings op r, s.authUser = some uid) ∧ lacks op r = false

instance (s : Session) (op : Op) (r : Reply) : Decidable (s.Together op r) :=
  inferInstanceAs (Decidable (_ ∧ _ ∧ _))

theorem together_of_none {s : Session} {op : Op} {r : Reply} (hsigns : s.signsIn op r = none)
    (hbrings : brings op r = none) (hlacks : lacks op r = false) : s.Together op r := by
  simp [Together, hsigns, hbrings, hlacks]

theorem identity_of_loggedOut {s : Session} (h : s.vm.loggedIn = false) : s.Identity := by
  intro hin
  rw [h] at hin
  exact absurd hin Bool.false_ne_true

theorem identity_enter {s : Session} {user : User} {uid : String} (hid : user.id = some uid) :
    (s.enter (some user)).Identity ↔ s.authUser = some uid := by
  constructor
  · intro h
    obtain ⟨uid', user', hauth, huser, hid'⟩ := h rfl
    obtain rfl := Option.some.inj huser
    rw [hid] at hid'
    rwa [← Option.some.inj hid'] at hauth
  · intro hauth _
    exact ⟨uid, user, hauth, rfl, hid⟩

/-- Nobody has the identity of a profile that does not exist. -/
theorem not_identity_enter {s : Session} : ¬ (s.enter none).Identity := by
  intro h
  obtain ⟨uid, user, -, huser, -⟩ := h rfl
  exact Option.some_ne_none user huser.symm

/-- A new signed-in user is the one who is logged in. -/
theorem identity_signIn {s : Session} (hs : s.Identity) (uid : String) :
    Identity { s with authUser := some uid } ↔ (s.vm.loggedIn = true → s.authUser = some uid) := by
  constructor
  · intro h hin
    obtain ⟨uid', user', hauth', huser', hid'⟩ := h hin
    obtain ⟨uid₀, user₀, hauth₀, huser₀, hid₀⟩ := hs hin
    have huser : user' = user₀ := Option.some.inj (huser'.symm.trans huser₀)
    rw [hauth₀, ← hid₀, ← huser, hid', ← hauth']
  · intro h hin
    obtain ⟨uid₀, user₀, hauth₀, huser₀, hid₀⟩ := hs hin
    refine ⟨uid, user₀, rfl, huser₀, ?_⟩
    rw [hid₀, ← hauth₀, h hin]

theorem identity_call {s s' : Session} {x : Call} {new : List Op} (hs : s.Identity)
    (h : s.call x = some (s', new)) : s'.Identity := by
  cases x with
  | login email password =>
    obtain ⟨rfl, -⟩ := Prod.mk.inj (Option.some.inj h)
    exact hs
  | fill email firstName lastName password =>
    obtain ⟨rfl, -⟩ := Prod.mk.inj (Option.some.inj h)
    exact hs
  | select university =>
    obtain ⟨-, heq⟩ := Option.ite_none_right_eq_some.mp h
    obtain ⟨rfl, -⟩ := Prod.mk.inj (Option.some.inj heq)
    exact hs
  | register =>
    obtain ⟨rfl, -⟩ := Prod.mk.inj (Option.some.inj h)
    exact hs
  | logout signsOut =>
    obtain ⟨rfl, -⟩ := Prod.mk.inj (Option.some.inj h)
    cases signsOut with
    | false => exact hs
    | true => exact identity_of_loggedOut rfl
  | getUniversities =>
    obtain ⟨rfl, -⟩ := Prod.mk.inj (Option.some.inj h)
    exact hs
  | write uid document =>
    obtain ⟨rfl, -⟩ := Prod.mk.inj (Option.some.inj h)
    exact hs

/-- What the arrival of a profile does. -/
theorem identity_arrive {s : Session} (hs : s.Identity) (uid : String)
    (document : Option Document) :
    (s.arrive uid document).Identity ↔ s.Together (.response uid document) .ok := by
  cases document with
  | none =>
    refine iff_of_false not_identity_enter fun h => ?_
    exact Bool.false_ne_true h.2.2.symm
  | some document =>
    cases hdecode : User.decode uid document with
    | none =>
      rw [arrive, hdecode]
      exact iff_of_true hs (together_of_none rfl (by simp [brings, hdecode]) rfl)
    | some user =>
      have henter : (s.enter (some user)).Identity ↔ s.authUser = some uid :=
        identity_enter (User.id_of_decode hdecode)
      simpa [arrive, Together, signsIn, brings, lacks, hdecode] using henter

/-- **What an answer keeps together.** -/
theorem identity_answer {s s' : Session} {op : Op} {r : Reply} {new : List Op} (hs : s.Identity)
    (h : s.answer op r = some (s', new)) : s'.Identity ↔ s.Together op r := by
  cases answered_of_answer h with
  | failed op err _ =>
    have hlacks : lacks op (.error err) = false := by
      cases op with
      | response uid document => cases document <;> rfl
      | signIn | getDocument | createUser | setData | fetchColleges => rfl
    exact iff_of_true hs (together_of_none (by cases op <;> rfl) (by cases op <;> rfl) hlacks)
  | signedIn email password account haccount =>
    rw [identity_signIn hs]
    simp [Together, signsIn, brings, lacks, haccount]
  | read uid => exact iff_of_true hs (together_of_none rfl rfl rfl)
  | arrived uid document => exact identity_arrive hs uid document
  | registered email password firstName lastName university uid =>
    have hid : (newUser uid email firstName lastName university).id = some uid := rfl
    exact iff_of_true ((identity_enter hid).mpr rfl) (together_of_none rfl rfl rfl)
  | unencoded email password firstName lastName university uid =>
    refine (identity_signIn hs uid).trans ?_
    simp [Together, signsIn, brings, lacks]
  | stored uid user => exact iff_of_true hs (together_of_none rfl rfl rfl)
  | fetched response => exact iff_of_true hs (together_of_none rfl rfl rfl)
  | unfetched err => exact iff_of_true hs (together_of_none rfl rfl rfl)

theorem identity_step {c c' : Config Session Op} {e : Event Call Reply} (hc : c.core.Identity)
    (h : service.step c e = some c') :
    c'.core.Identity ↔ Service.OnAnswer Together c e := by
  obtain ⟨s, ops⟩ := c
  rcases Service.step_cases h with ⟨x, s', new, rfl, hcall, rfl⟩ |
    ⟨pre, op, post, r, s', new, rfl, hpending, hanswer, rfl⟩
  · exact iff_of_true (identity_call hc hcall) trivial
  · subst hpending
    exact (identity_answer hc hanswer).trans Service.onStep_answer.symm

def ann : User := ⟨some "ann", "Ann", "Lee", "ann@duke.edu", "Duke University"⟩

/-- Ann has an account and a profile. -/
def annsApp : Config Session Op :=
  ⟨launch none [⟨"ann", "ann@duke.edu", "secret"⟩]
    (Function.update (fun _ => none) "ann" (some ann.encode)), []⟩

/-- Ann logs in, and then out and in again. -/
def twoLogins : List (Event Call Reply) :=
  [.call (.login "ann@duke.edu" "secret"), .answer 0 .ok, .answer 0 .ok, .answer 0 .ok,
    .call (.logout true), .call (.login "ann@duke.edu" "secret"), .answer 0 .ok, .answer 0 .ok,
    .answer 0 .ok]

/-- Ann logs out before her profile arrives, and is logged in by it. -/
def lateProfile : List (Event Call Reply) :=
  [.call (.login "ann@duke.edu" "secret"), .answer 0 .ok, .answer 0 .ok, .call (.logout true),
    .answer 0 .ok]

end Session

end Subtle.Auth
