import Subtle.Auth.Session
import Subtle.Lib.Provenance

/-!
# The university of a new account

The picker of the sign-up form starts with `dummyCollege`, and `getUniversities` replaces
its list by the fetched one, or by one entry with the text of the error.  What was
selected stays selected.  `register` refuses `dummyCollege` and no other entry.

* `signingUp`: the session with the universities that have been offered.
* `registered_genuine_iff`: **fetched universities are registered throughout a run, and
  none else, exactly when no valid form is submitted with a placeholder**.
-/

namespace Subtle.Auth

open Subtle.Firestore Subtle.Lib

/-- The university that reaches `AuthService.register`. -/
def Op.university : Op → Option String
  | .createUser _ _ _ _ university => some university
  | _ => none

namespace Session

/-- The universities offered so far, by their names. -/
def noteUniversities (o : Offers String) (_ : Session) : Op → Reply → Option (Offers String)
  | .fetchColleges, .colleges response => some (o.bring (.ok (response.map College.name)))
  | .fetchColleges, .error localizedDescription => some (o.bring (.error localizedDescription))
  | _, _ => some o

/-- The session with the universities that have been offered. -/
def signingUp : Service (Session × Offers String) Call Op Reply :=
  service.watched id id (fun o _ _ => some o) noteUniversities

def signingUp.start (authUser : Option String) (accounts : List Account)
    (users : String → Option Document) : Config (Session × Offers String) Op :=
  ⟨(launch authUser accounts users, ⟨[], [College.dummyCollege.name]⟩), []⟩

/-- The university of the form, when it is submitted and valid. -/
def submits (p : Session × Offers String) : Call → Option String
  | .register =>
      let vm := { p.1.vm with firstSubmitAttempted := true }
      if vm.formIsValid then some vm.university.name else none
  | _ => none

/-- The selected university and the entries of the list have been offered. -/
structure Offered (p : Session × Offers String) : Prop where
  selected : p.2.Known p.1.vm.university.name
  list : ∀ college ∈ p.1.vm.universityList, p.2.Known college.name

variable {s s' : Session} {o o' : Offers String} {op : Op} {new : List Op}

theorem Offered.of_vm (h : Offered (s, o)) (huniversity : s'.vm.university = s.vm.university)
    (hlist : s'.vm.universityList = s.vm.universityList) : Offered (s', o) :=
  ⟨huniversity ▸ h.selected, hlist ▸ h.list⟩

theorem offered_launch (authUser : Option String) (accounts : List Account)
    (users : String → Option Document) :
    Offered (signingUp.start authUser accounts users).core := by
  have hdummy : (signingUp.start authUser accounts users).core.2.Known College.dummyCollege.name :=
    Or.inr (List.mem_singleton.mpr rfl)
  refine ⟨hdummy, fun college hcollege => ?_⟩
  obtain rfl := List.mem_singleton.mp hcollege
  exact hdummy

theorem university_register {vm : AuthVM} (u : String) :
    (∃ op ∈ register vm, u ∈ op.university) ↔
      u ∈ if vm.formIsValid then some vm.university.name else none := by
  unfold register
  split
  · simp [Op.university]
  · simp

theorem offered_call {x : Call} (h : Offered (s, o))
    (hx : signingUp.call (s, o) x = some ((s', o'), new)) :
    Offered (s', o') ∧ Offers.CallSpec Op.university o o' (submits (s, o) x) new := by
  obtain ⟨hnote, hcall⟩ := Service.watched_call hx
  obtain rfl := Option.some.inj hnote
  have hnone : ∀ {ops : List Op}, (∀ op ∈ ops, op.university = none) →
      Offers.CallSpec Op.university o o none ops := Offers.callSpec_none (List.Subset.refl _)
  cases x with
  | register =>
    obtain ⟨rfl, rfl⟩ := Prod.mk.inj (Option.some.inj hcall)
    refine ⟨h.of_vm rfl rfl, List.Subset.refl _, university_register, ?_⟩
    intro u hu
    obtain ⟨-, hu⟩ := Option.ite_none_right_eq_some.mp hu
    obtain rfl := Option.some.inj hu
    exact ⟨h.selected, rfl⟩
  | select university =>
    obtain ⟨hmem, heq⟩ := Option.ite_none_right_eq_some.mp hcall
    obtain ⟨rfl, rfl⟩ := Prod.mk.inj (Option.some.inj heq)
    exact ⟨⟨h.list university hmem, h.list⟩, hnone (List.forall_mem_nil _)⟩
  | logout signsOut =>
    obtain ⟨rfl, rfl⟩ := Prod.mk.inj (Option.some.inj hcall)
    refine ⟨?_, hnone (List.forall_mem_nil _)⟩
    cases signsOut with
    | false => exact h
    | true => exact h.of_vm rfl rfl
  | login email password =>
    obtain ⟨rfl, rfl⟩ := Prod.mk.inj (Option.some.inj hcall)
    exact ⟨h, hnone (List.forall_mem_singleton.mpr rfl)⟩
  | fill email firstName lastName password =>
    obtain ⟨rfl, rfl⟩ := Prod.mk.inj (Option.some.inj hcall)
    exact ⟨h.of_vm rfl rfl, hnone (List.forall_mem_nil _)⟩
  | getUniversities =>
    obtain ⟨rfl, rfl⟩ := Prod.mk.inj (Option.some.inj hcall)
    exact ⟨h, hnone (List.forall_mem_singleton.mpr rfl)⟩
  | write uid document =>
    obtain ⟨rfl, rfl⟩ := Prod.mk.inj (Option.some.inj hcall)
    exact ⟨h.of_vm rfl rfl, hnone (List.forall_mem_nil _)⟩

/-- Only the end of a fetch changes what has been offered. -/
theorem noteUniversities_eq {r : Reply} (hop : op ≠ .fetchColleges) :
    noteUniversities o s op r = some o := by
  cases op with
  | fetchColleges => exact absurd rfl hop
  | _ => rfl

/-- A new list is on offer. -/
theorem Offered.bring (h : Offered (s, o)) {r : Except String (List String)}
    {colleges : List College} (hcolleges : colleges.map College.name = Offers.offered r) :
    Offered ({ s with vm := { s.vm with universityList := colleges } }, o.bring r) := by
  refine ⟨h.selected.bring, fun college hcollege => Offers.known_of_offered ?_⟩
  rw [← hcolleges]
  exact List.mem_map_of_mem hcollege

theorem offered_answer {r : Reply} (h : Offered (s, o))
    (hr : signingUp.answer (s, o) op r = some ((s', o'), new)) :
    Offered (s', o') ∧ Offers.AnswerSpec Op.university o o' op new := by
  obtain ⟨hnote, hanswer⟩ := Service.watched_answer hr
  have hrest : op ≠ .fetchColleges → o' = o := fun hop =>
    (Option.some.inj ((noteUniversities_eq hop).symm.trans hnote)).symm
  have hnone : ∀ {ops : List Op}, (∀ op' ∈ ops, op'.university = none) →
      ∀ op' ∈ ops, ∀ u ∈ op'.university, u ∈ op.university := by
    intro ops hops op' hop' u hu
    rw [hops op' hop'] at hu
    exact absurd hu (Option.not_mem_none u)
  cases answered_of_answer hanswer with
  | failed op localizedDescription hop =>
    obtain rfl := hrest hop
    exact ⟨h, List.Subset.refl _, hnone (List.forall_mem_nil _)⟩
  | signedIn email password account haccount =>
    obtain rfl := hrest nofun
    exact ⟨h.of_vm rfl rfl, List.Subset.refl _, hnone (List.forall_mem_singleton.mpr rfl)⟩
  | read uid =>
    obtain rfl := hrest nofun
    exact ⟨h, List.Subset.refl _, hnone (List.forall_mem_singleton.mpr rfl)⟩
  | arrived uid document =>
    obtain rfl := hrest nofun
    refine ⟨?_, List.Subset.refl _, hnone (List.forall_mem_nil _)⟩
    rcases s.arrive_eq uid document with heq | ⟨currentUser, heq⟩
    · rwa [heq]
    · rw [heq]
      exact h.of_vm rfl rfl
  | registered email password firstName lastName university uid =>
    obtain rfl := hrest nofun
    exact ⟨h.of_vm rfl rfl, List.Subset.refl _, hnone (List.forall_mem_singleton.mpr rfl)⟩
  | unencoded email password firstName lastName university uid =>
    obtain rfl := hrest nofun
    exact ⟨h.of_vm rfl rfl, List.Subset.refl _, hnone (List.forall_mem_nil _)⟩
  | stored uid user =>
    obtain rfl := hrest nofun
    exact ⟨h.of_vm rfl rfl, List.Subset.refl _, hnone (List.forall_mem_nil _)⟩
  | fetched response =>
    obtain rfl := Option.some.inj hnote
    exact ⟨h.bring rfl, Offers.genuine_subset_bring, hnone (List.forall_mem_nil _)⟩
  | unfetched localizedDescription =>
    obtain rfl := Option.some.inj hnote
    exact ⟨h.bring rfl, Offers.genuine_subset_bring, hnone (List.forall_mem_nil _)⟩

/-- **The universities that are registered throughout a run have been fetched exactly when
no valid form is submitted with a placeholder.** -/
theorem registered_genuine_iff {authUser : Option String} {accounts : List Account}
    {users : String → Option Document} {es : List (Event Call Reply)}
    {c : Config (Session × Offers String) Op}
    (hrun : signingUp.machine.run (signingUp.start authUser accounts users) es = some c) :
    signingUp.machine.Always (Service.Genuine Prod.snd Op.university)
        (signingUp.start authUser accounts users) es ↔
      signingUp.machine.Along
        (Service.OnCall (Service.HandsGenuine Prod.snd submits))
        (signingUp.start authUser accounts users) es := by
  refine Service.genuine_iff (J := fun p _ => Offered p) ?_ ?_
    (offered_launch authUser accounts users) (List.forall_mem_nil _) hrun
  · rintro ⟨s, o⟩ ops x ⟨s', o'⟩ new h hcall
    exact offered_call h hcall
  · rintro ⟨s, o⟩ pre op post r ⟨s', o'⟩ new h hanswer
    exact offered_answer h hanswer

/-- Ann opens the sign-up form, selects the university once the fetch has ended, and
registers. -/
def annSignsUp (answer : Reply) (university : College) (email : String) :
    List (Event Call Reply) :=
  [.call .getUniversities, .answer 0 answer, .call (.select university),
    .call (.fill email "Ann" "Lee" "secret"), .call .register]

/-- The text of an error is registered, with an address at `error.edu`. -/
example : (signingUp.machine.run (signingUp.start none [] fun _ => none)
    (annSignsUp (.error "offline") ⟨"offline", "error.edu"⟩ "ann@error.edu")).map
      (fun c => (c.pending.map Op.university, c.core.2.genuine)) = some ([some "offline"], []) := by
  decide +kernel

end Session

end Subtle.Auth
