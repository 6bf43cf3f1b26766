import Subtle.Auth.Session

/-!
# Registration

`AuthService.register` creates an account and then writes its profile.  It tells its caller
before the profile is committed, and nothing undoes the account when a later step fails.

* `registration`: one registration with what its caller is told.
* `registered_iff`: **a registration is all or nothing exactly when neither the encoding nor
  the commit of the profile fails**.
-/

namespace Subtle.Auth

open Subtle.Firestore Subtle.Lib

namespace Session

/-- What the completion is called with. -/
def noteTold (told : List Bool) (s : Session) : Op → Reply → Option (List Bool)
  | .createUser .., .created uid encodes =>
      -- no profile has been written for a new uid
      if s.users uid = none then some (if encodes then told ++ [true] else told) else none
  | _, _ => some told

/-- The answers of one registration, with what its caller is told. -/
def registration : Service (Session × List Bool) Call Op Reply :=
  service.watched id id (fun _ _ _ => none) noteTold

/-- The operation that `AuthService.register` starts with. -/
def registration.start (s : Session) (email password firstName lastName university : String) :
    Config (Session × List Bool) Op :=
  ⟨(s, []), [.createUser email password firstName lastName university]⟩

/-- `AuthVM.register` starts a registration with the values of its form. -/
theorem step_register (s : Session)
    (hvalid : AuthVM.formIsValid { s.vm with firstSubmitAttempted := true } = true) :
    service.step ⟨s, []⟩ (.call .register) =
      some ⟨{ s with vm := { s.vm with firstSubmitAttempted := true } },
        [.createUser s.vm.email s.vm.password s.vm.firstName s.vm.lastName
          s.vm.university.name]⟩ := by
  simp only [Service.step, service, call, register, hvalid, if_true, Option.map_some,
    List.nil_append]

/-- Account and profile exist and the caller was told `true`, or nothing has changed and the
caller was told nothing. -/
def AllOrNothing (s : Session) (email password firstName lastName university : String)
    (p : Session × List Bool) : Prop :=
  (∃ uid, ⟨uid, email, password⟩ ∈ p.1.accounts ∧
      p.1.users uid = some (newUser uid email firstName lastName university).encode ∧
        p.2 = [true]) ∨
    p.1.accounts = s.accounts ∧ p.1.users = s.users ∧ p.2 = []

/-- Once the account is created the other steps succeed. -/
def Succeeds : Op → Reply → Prop
  | .createUser .., .created _ encodes => encodes = true
  | .setData .., .error _ => False
  | _, _ => True

variable {s : Session} {email password firstName lastName university : String}
  {es : List (Event Call Reply)} {c : Config (Session × List Bool) Op}

theorem answer_createUser {p : Session × List Bool} {uid : String} {encodes : Bool} {new : List Op}
    (h : registration.answer (s, []) (.createUser email password firstName lastName university)
      (.created uid encodes) = some (p, new)) :
    (∀ account ∈ s.accounts, account.email ≠ email) ∧ s.users uid = none ∧
      p.1.accounts = ⟨uid, email, password⟩ :: s.accounts ∧ p.1.users = s.users ∧
        p.2 = (if encodes then [true] else []) ∧
          new = if encodes then
            [.setData uid (newUser uid email firstName lastName university)] else [] := by
  obtain ⟨t, told⟩ := p
  obtain ⟨hnote, hans⟩ := Service.watched_answer h
  obtain ⟨hnone, rfl⟩ := Option.ite_some_none_eq_some.mp hnote
  obtain ⟨hfresh, hans⟩ := Option.ite_none_left_eq_some.mp hans
  have hemail : ∀ account ∈ s.accounts, account.email ≠ email := by
    intro account haccount heq
    exact hfresh (List.any_eq_true.mpr ⟨account, haccount, by simp [heq]⟩)
  refine ⟨hemail, hnone, ?_⟩
  cases encodes with
  | true =>
    obtain ⟨rfl, rfl⟩ := Prod.mk.inj (Option.some.inj hans)
    exact ⟨rfl, rfl, rfl, rfl⟩
  | false =>
    obtain ⟨rfl, rfl⟩ := Prod.mk.inj (Option.some.inj hans)
    exact ⟨rfl, rfl, rfl, rfl⟩

/-- A new account without a profile is neither all nor nothing. -/
theorem not_allOrNothing {p : Session × List Bool} {uid : String}
    (hemail : ∀ account ∈ s.accounts, account.email ≠ email)
    (haccounts : p.1.accounts = ⟨uid, email, password⟩ :: s.accounts)
    (hnone : p.1.users uid = none) :
    ¬ AllOrNothing s email password firstName lastName university p := by
  rintro (⟨uid', haccount, hprofile, -⟩ | ⟨hsame, -, -⟩)
  · rw [haccounts] at haccount
    rcases List.mem_cons.mp haccount with heq | hold
    · obtain rfl : uid' = uid := congrArg Account.uid heq
      exact absurd (hnone.symm.trans hprofile) (Option.some_ne_none _).symm
    · exact hemail _ hold rfl
  · exact absurd (congrArg List.length (haccounts.symm.trans hsame)) (by simp)

theorem profile_iff {p : Session × List Bool} {uid : String}
    (hemail : ∀ account ∈ s.accounts, account.email ≠ email)
    (haccounts : p.1.accounts = ⟨uid, email, password⟩ :: s.accounts)
    (hnone : p.1.users uid = none) (htold : p.2 = [true])
    (hrun : registration.machine.run
      ⟨p, [.setData uid (newUser uid email firstName lastName university)]⟩ es = some c)
    (hrest : c.pending = []) :
    AllOrNothing s email password firstName lastName university c.core ↔
      registration.machine.Along (Service.OnAnswer fun _ => Succeeds)
        ⟨p, [.setData uid (newUser uid email firstName lastName university)]⟩ es := by
  obtain ⟨r, p', new, es', rfl, hanswer, hstep, hrun⟩ :=
    Service.run_of_singleton (fun _ _ => rfl) hrun hrest
  obtain ⟨s₁, told⟩ := p
  obtain ⟨s', told'⟩ := p'
  obtain ⟨hnote, hans⟩ := Service.watched_answer hanswer
  cases r with
  | ok =>
    obtain rfl := Option.some.inj hnote
    obtain ⟨rfl, rfl⟩ := Prod.mk.inj (Option.some.inj hans)
    obtain ⟨rfl, rfl⟩ := Service.run_of_nil (fun _ _ => rfl) hrun
    refine iff_of_true (Or.inl ⟨uid, ?_, Function.update_self _ _ _, htold⟩) ?_
    · show _ ∈ s₁.accounts
      rw [haccounts]
      exact List.mem_cons_self
    · exact Machine.along_cons hstep (fun op hop => by
        obtain rfl := Option.some.inj hop
        trivial) trivial
  | error err =>
    obtain rfl := Option.some.inj hnote
    obtain ⟨rfl, rfl⟩ := Prod.mk.inj (Option.some.inj hans)
    obtain ⟨rfl, rfl⟩ := Service.run_of_nil (fun _ _ => rfl) hrun
    exact iff_of_false (not_allOrNothing hemail haccounts hnone) fun h => h.1 _ rfl
  | created uid' encodes => exact absurd hans (Option.some_ne_none _).symm
  | colleges response => exact absurd hans (Option.some_ne_none _).symm

/-- **A registration that has come to rest is all or nothing exactly when neither the
encoding nor the commit of the profile has failed.** -/
theorem registered_iff
    (hrun : registration.machine.run
      (registration.start s email password firstName lastName university) es = some c)
    (hrest : c.pending = []) :
    AllOrNothing s email password firstName lastName university c.core ↔
      registration.machine.Along (Service.OnAnswer fun _ => Succeeds)
        (registration.start s email password firstName lastName university) es := by
  obtain ⟨r, p, new, es', rfl, hanswer, hstep, hrun⟩ :=
    Service.run_of_singleton (fun _ _ => rfl) hrun hrest
  cases r with
  | ok => exact absurd (Service.watched_answer hanswer).2 (Option.some_ne_none _).symm
  | colleges response =>
    exact absurd (Service.watched_answer hanswer).2 (Option.some_ne_none _).symm
  | error err =>
    obtain ⟨s', told'⟩ := p
    obtain ⟨hnote, hans⟩ := Service.watched_answer hanswer
    obtain rfl := Option.some.inj hnote
    obtain ⟨rfl, rfl⟩ := Prod.mk.inj (Option.some.inj hans)
    obtain ⟨rfl, rfl⟩ := Service.run_of_nil (fun _ _ => rfl) hrun
    refine iff_of_true (Or.inr ⟨rfl, rfl, rfl⟩) (Machine.along_cons hstep ?_ trivial)
    intro op hop
    obtain rfl := Option.some.inj hop
    trivial
  | created uid encodes =>
    obtain ⟨hemail, hnone, haccounts, husers, htold, rfl⟩ := answer_createUser hanswer
    rw [← husers] at hnone
    cases encodes with
    | true =>
      rw [profile_iff hemail haccounts hnone htold hrun hrest]
      constructor
      · intro h
        refine Machine.along_cons hstep ?_ h
        intro op hop
        obtain rfl := Option.some.inj hop
        rfl
      · exact fun h => h.2 _ hstep
    | false =>
      obtain ⟨rfl, rfl⟩ := Service.run_of_nil (fun _ _ => rfl) hrun
      refine iff_of_false (not_allOrNothing hemail haccounts hnone) fun h => ?_
      exact Bool.false_ne_true (h.1 _ rfl)

/-- Nobody has an account yet. -/
def nobody : Session := launch none [] fun _ => none

/-- The answers of a registration of Ann's. -/
def annRegisters (answers : List (Event Call Reply)) : Option (Config (Session × List Bool) Op) :=
  registration.machine.run
    (registration.start nobody "ann@duke.edu" "secret" "Ann" "Lee" "Duke University") answers

theorem registered_iff_example :
    ∃ c, annRegisters [.answer 0 (.created "ann" true), .answer 0 .ok] = some c ∧
      AllOrNothing nobody "ann@duke.edu" "secret" "Ann" "Lee" "Duke University" c.core := by
  have hrun : ∃ c, annRegisters [.answer 0 (.created "ann" true), .answer 0 .ok] = some c ∧
      c.pending = [] := ⟨_, rfl, rfl⟩
  obtain ⟨c, hc, hrest⟩ := hrun
  refine ⟨c, hc, (registered_iff hc hrest).mpr ⟨?_, ?_⟩⟩
  · intro op hop
    obtain rfl := Option.some.inj hop
    rfl
  · intro c' hstep
    obtain rfl := Option.some.inj hstep
    refine ⟨?_, fun _ _ => trivial⟩
    intro op hop
    obtain rfl := Option.some.inj hop
    trivial

/-- The commit of the profile fails after the caller was told. -/
theorem registered_half : ¬ ∀ (s : Session)
    (email password firstName lastName university : String) (es : List (Event Call Reply))
    (c : Config (Session × List Bool) Op),
      registration.machine.run (registration.start s email password firstName lastName university)
        es = some c → c.pending = [] →
          AllOrNothing s email password firstName lastName university c.core := by
  intro h
  rcases h nobody "ann@duke.edu" "secret" "Ann" "Lee" "Duke University"
    [.answer 0 (.created "ann" true), .answer 0 (.error "unavailable")] _ rfl rfl with
    ⟨uid, -, hprofile, -⟩ | ⟨-, -, htold⟩
  · exact absurd hprofile (Option.some_ne_none _).symm
  · exact absurd htold (List.cons_ne_nil _ _)

end Session

end Subtle.Auth
