import Subtle.Auth.Names
import Subtle.Chat.LiveList

/-!
# The names in the chat list

For every change that decodes, `ChatListVM` looks up the name of the partner unless it has
one.  Lookups for one partner may be outstanding several times, and are answered in any
order; the profiles may be rewritten or deleted meanwhile.

* `names`: the list with its names, over the profiles.
* `names_held`: **a name that is shown is one that the profile of the partner had at some
  moment of the run**.
* `names_complete`: **where lookups succeed, every entry of the list has a name or is waiting
  for one**.
-/

namespace Subtle.Chat

open Subtle.Firestore Subtle.Lib Subtle.Auth

/-! ### The service -/

/-- A chat list with its names, and the stored profiles. -/
structure NamedList where
  vm : ChatListVM
  idToUserNames : String → Option String
  users : String → Option Document

/-- A new list, before its first snapshot. -/
def NamedList.start (sender : Option String) (users : String → Option Document) : NamedList :=
  ⟨ChatListVM.fetchRecentMessages sender, fun _ => none, users⟩

inductive NameCall where
  /-- Some client writes or deletes a profile. -/
  | write (uid : String) (document : Option Document)
  | snapshot (changes : List (Change String Fields))

namespace NamedList

/-- The lookup for one change, with the names that are known. -/
def lookup (id : String) (idToUserNames : String → Option String)
    (change : Change String Fields) : Option Lookup :=
  (RecentMessage.decode change.id change.document).bind fun message =>
    let idForRetrieval := ChatListVM.idForRetrieval id message
    if idToUserNames idForRetrieval = none then some (.getDocument idForRetrieval) else none

def call (s : NamedList) : NameCall → Option (NamedList × List Lookup)
  | .write uid document => some ({ s with users := Function.update s.users uid document }, [])
  | .snapshot changes => s.vm.listener.map fun id =>
      ({ s with vm := s.vm.handle changes }, changes.filterMap (lookup id s.idToUserNames))

/-- The backend answers a lookup, or fails to. -/
def answer (s : NamedList) : Lookup → Bool → Option (NamedList × List Lookup)
  | .getDocument id, true => some (s, [.response id (s.users id)])
  | .response id document, true =>
      match nameFromDocument id document with
      | some fullName =>
          some ({ s with idToUserNames := Function.update s.idToUserNames id (some fullName) }, [])
      | none => some (s, [])
  | _, false => some (s, [])

end NamedList

def names : Service NamedList NameCall Lookup Bool := ⟨NamedList.call, NamedList.answer⟩

variable {s s' : NamedList} {new ops pre post : List Lookup} {op : Lookup}

/-- **What an answer can do**: nothing more, hand on a profile as it is, or set a name. -/
theorem answer_cases {ok : Bool} (h : names.answer s op ok = some (s', new)) :
    (s' = s ∧ new = []) ∨
    (∃ id, op = .getDocument id ∧ s' = s ∧ new = [.response id (s.users id)]) ∨
    ∃ id document fullName, op = .response id document ∧
      nameFromDocument id document = some fullName ∧
      s' = { s with idToUserNames := Function.update s.idToUserNames id (some fullName) } ∧
      new = [] := by
  cases ok with
  | false => cases op <;> obtain ⟨rfl, rfl⟩ := Prod.mk.inj (Option.some.inj h) <;>
      exact Or.inl ⟨rfl, rfl⟩
  | true =>
    cases op with
    | getDocument id =>
      obtain ⟨rfl, rfl⟩ := Prod.mk.inj (Option.some.inj h)
      exact Or.inr (Or.inl ⟨id, rfl, rfl, rfl⟩)
    | response id document =>
      cases hname : nameFromDocument id document with
      | none =>
        simp only [names, NamedList.answer, hname] at h
        obtain ⟨rfl, rfl⟩ := Prod.mk.inj (Option.some.inj h)
        exact Or.inl ⟨rfl, rfl⟩
      | some fullName =>
        simp only [names, NamedList.answer, hname] at h
        obtain ⟨rfl, rfl⟩ := Prod.mk.inj (Option.some.inj h)
        exact Or.inr (Or.inr ⟨id, document, fullName, rfl, hname, rfl, rfl⟩)

/-! ### Where names come from -/

/-- The profile of `id` is this document. -/
def HasProfile (id : String) (document : Option Document) (c : Config NamedList Lookup) : Prop :=
  c.core.users id = document

/-- Every name, and every profile on its way, was there at some moment of the run. -/
structure NamesHeld (c₀ : Config NamedList Lookup) (es : List (Event NameCall Bool))
    (c : Config NamedList Lookup) : Prop where
  run : names.machine.run c₀ es = some c
  responses : ∀ id document, .response id document ∈ c.pending →
    names.machine.Sometime (HasProfile id document) c₀ es
  names : ∀ id fullName, c.core.idToUserNames id = some fullName → ∃ document,
    nameFromDocument id document = some fullName ∧
      names.machine.Sometime (HasProfile id document) c₀ es

theorem names_held_step {c₀ c c' : Config NamedList Lookup} {es : List (Event NameCall Bool)}
    {e : Event NameCall Bool} (h : NamesHeld c₀ es c) (hstep : names.machine.step c e = some c') :
    NamesHeld c₀ (es ++ [e]) c' := by
  have hrun := Machine.run_concat h.run hstep
  have hnames : ∀ id fullName, c.core.idToUserNames id = some fullName → ∃ document,
      nameFromDocument id document = some fullName ∧
        names.machine.Sometime (HasProfile id document) c₀ (es ++ [e]) := by
    intro id fullName hid
    obtain ⟨document, hname, hheld⟩ := h.names id fullName hid
    exact ⟨document, hname, hheld.append [e]⟩
  rcases Service.step_cases hstep with ⟨x, s, new, rfl, hx, rfl⟩ |
    ⟨pre, op, post, ok, s, new, rfl, hp, hx, rfl⟩
  · cases x with
    | write uid document =>
      obtain ⟨rfl, rfl⟩ := Prod.mk.inj (Option.some.inj hx)
      refine ⟨hrun, fun id document' hop => ?_, hnames⟩
      rw [List.append_nil] at hop
      exact (h.responses id document' hop).append _
    | snapshot changes =>
      obtain ⟨id, -, heq⟩ := Option.map_eq_some_iff.mp hx
      obtain ⟨rfl, rfl⟩ := Prod.mk.inj heq
      refine ⟨hrun, fun id' document hop => ?_, hnames⟩
      rcases List.mem_append.mp hop with hop | hop
      · exact (h.responses id' document hop).append _
      · -- a snapshot starts lookups only
        obtain ⟨change, -, hlookup⟩ := List.mem_filterMap.mp hop
        obtain ⟨message, -, hlookup⟩ := Option.bind_eq_some_iff.mp hlookup
        obtain ⟨-, heq⟩ := Option.ite_none_right_eq_some.mp hlookup
        exact absurd heq (by simp)
  · have hold : ∀ id document, .response id document ∈ pre ++ post →
        names.machine.Sometime (HasProfile id document) c₀ (es ++ [.answer pre.length ok]) := by
      intro id document hop
      have hin : .response id document ∈ c.pending :=
        hp ▸ Service.mem_pending_iff.mpr (Or.inr hop)
      exact (h.responses id document hin).append _
    rcases answer_cases hx with ⟨rfl, rfl⟩ | ⟨id, rfl, rfl, rfl⟩ |
      ⟨id, document, fullName, rfl, hname, rfl, rfl⟩
    · refine ⟨hrun, fun id document hop => ?_, hnames⟩
      rw [List.append_nil] at hop
      exact hold id document hop
    · refine ⟨hrun, fun id' document hop => ?_, hnames⟩
      rcases List.mem_append.mp hop with hop | hop
      · exact hold id' document hop
      · obtain ⟨rfl, rfl⟩ := Lookup.response.inj (List.mem_singleton.mp hop)
        have hnow : HasProfile id' (c.core.users id') c := rfl
        exact (Machine.sometime_of_run h.run hnow).append _
    · refine ⟨hrun, fun id' document' hop => ?_, fun id' fullName' hid => ?_⟩
      · rw [List.append_nil] at hop
        exact hold id' document' hop
      · by_cases hsame : id' = id
        · subst hsame
          obtain rfl : fullName = fullName' :=
            Option.some.inj ((Function.update_self id' _ _).symm.trans hid)
          have hin : .response id' document ∈ c.pending := hp ▸ by simp
          exact ⟨document, hname, (h.responses id' document hin).append _⟩
        · have hid' : c.core.idToUserNames id' = some fullName' :=
            (Function.update_of_ne hsame _ _).symm.trans hid
          exact hnames id' fullName' hid'

/-- **A name that is shown is one that the profile of the partner had** at some moment of the
run, whatever lookups failed, were repeated or overtook one another. -/
theorem names_held {sender : Option String} {users : String → Option Document}
    {es : List (Event NameCall Bool)} {c : Config NamedList Lookup}
    (hrun : names.machine.run ⟨.start sender users, []⟩ es = some c) {id fullName : String}
    (hname : c.core.idToUserNames id = some fullName) :
    ∃ es₁ es₂ c', es = es₁ ++ es₂ ∧ names.machine.run ⟨.start sender users, []⟩ es₁ = some c' ∧
      nameFromDocument id (c'.core.users id) = some fullName := by
  have hheld : NamesHeld ⟨.start sender users, []⟩ es c := by
    refine Machine.run_trace_inv (M := names.machine) (h := [])
      (I := fun c es => NamesHeld ⟨.start sender users, []⟩ es c) ?_ ?_ hrun
    · intro c es e c' h hstep
      exact names_held_step h hstep
    · refine ⟨rfl, fun id document hop => absurd hop List.not_mem_nil, ?_⟩
      exact fun id fullName hid => absurd hid (Option.some_ne_none fullName).symm
  obtain ⟨document, hdecode, es₁, es₂, c', rfl, hrun', rfl⟩ := hheld.names id fullName hname
  exact ⟨es₁, es₂, c', rfl, hrun', hdecode⟩

/-! ### Every entry has a name -/

/-- Every entry of the list has a name or a lookup for it is outstanding. -/
def Covered (s : NamedList) (ops : List Lookup) : Prop :=
  ∀ user ∈ s.vm.listener, ∀ m ∈ s.vm.recentMessages,
    s.idToUserNames (ChatListVM.idForRetrieval user m) ≠ none ∨
      ∃ op ∈ ops, op.id = ChatListVM.idForRetrieval user m

/-- The backend answers the lookup, with a profile that decodes. -/
def Resolves (_s : NamedList) (op : Lookup) (ok : Bool) : Prop :=
  ok = true ∧ ∀ id document, op = .response id document → nameFromDocument id document ≠ none

/-- An entry was in the list, or comes from a change. -/
theorem mem_handle {vm : ChatListVM} {changes : List (Change String Fields)} {m : RecentMessage}
    (h : m ∈ (vm.handle changes).recentMessages) : m ∈ vm.recentMessages ∨
      ∃ change ∈ changes, RecentMessage.decode change.id change.document = some m := by
  change m ∈ changes.foldl ChatListVM.handleChange vm.recentMessages at h
  generalize vm.recentMessages = shown at h
  induction changes generalizing shown with
  | nil => exact Or.inl h
  | cons change changes ih =>
    rcases ih _ h with hshown | ⟨change', hin, hdecode⟩
    · unfold ChatListVM.handleChange at hshown
      split at hshown
      · exact Or.inl hshown
      · rename_i message hmessage
        rcases List.mem_cons.mp hshown with rfl | hshown
        · exact Or.inr ⟨change, List.mem_cons_self, hmessage⟩
        · exact Or.inl (List.mem_of_mem_eraseP hshown)
    · exact Or.inr ⟨change', List.mem_cons_of_mem _ hin, hdecode⟩

theorem covered_call (h : Covered s ops) {x : NameCall}
    (hx : names.call s x = some (s', new)) : Covered s' (ops ++ new) := by
  cases x with
  | write uid document =>
    obtain ⟨rfl, rfl⟩ := Prod.mk.inj (Option.some.inj hx)
    rw [List.append_nil]
    exact h
  | snapshot changes =>
    obtain ⟨id, hid, heq⟩ := Option.map_eq_some_iff.mp hx
    obtain ⟨rfl, rfl⟩ := Prod.mk.inj heq
    intro user huser m hm
    obtain rfl : id = user := Option.some.inj (hid.symm.trans huser)
    rcases mem_handle hm with hshown | ⟨change, hchange, hdecode⟩
    · refine (h id huser m hshown).imp_right ?_
      rintro ⟨op, hop, hopid⟩
      exact ⟨op, List.mem_append_left _ hop, hopid⟩
    · by_cases hnone : s.idToUserNames (ChatListVM.idForRetrieval id m) = none
      · -- the change starts a lookup
        refine Or.inr ⟨.getDocument (ChatListVM.idForRetrieval id m), ?_, rfl⟩
        refine List.mem_append_right _ (List.mem_filterMap.mpr ⟨change, hchange, ?_⟩)
        rw [NamedList.lookup, hdecode]
        exact if_pos hnone
      · exact Or.inl hnone

theorem covered_answer (h : Covered s (pre ++ op :: post)) {ok : Bool}
    (hresolves : Resolves s op ok) (hx : names.answer s op ok = some (s', new)) :
    Covered s' (pre ++ post ++ new) := by
  obtain ⟨rfl, hdecodes⟩ := hresolves
  cases op with
  | getDocument id =>
    obtain ⟨rfl, rfl⟩ := Prod.mk.inj (Option.some.inj hx)
    intro user huser m hm
    refine (h user huser m hm).imp_right ?_
    rintro ⟨op, hop, hopid⟩
    rcases Service.mem_pending_iff.mp hop with rfl | hop
    · exact ⟨_, List.mem_append_right _ List.mem_cons_self, hopid⟩
    · exact ⟨op, List.mem_append_left _ hop, hopid⟩
  | response id document =>
    obtain ⟨fullName, hname⟩ := Option.ne_none_iff_exists'.mp (hdecodes id document rfl)
    simp only [names, NamedList.answer, hname] at hx
    obtain ⟨rfl, rfl⟩ := Prod.mk.inj (Option.some.inj hx)
    intro user huser m hm
    show Function.update s.idToUserNames id (some fullName) _ ≠ none ∨ _
    by_cases hsame : ChatListVM.idForRetrieval user m = id
    · rw [hsame, Function.update_self]
      exact Or.inl (Option.some_ne_none _)
    · rw [Function.update_of_ne hsame]
      refine (h user huser m hm).imp_right ?_
      rintro ⟨op, hop, hopid⟩
      rcases Service.mem_pending_iff.mp hop with rfl | hop
      · exact absurd hopid.symm hsame
      · exact ⟨op, List.mem_append_left _ hop, hopid⟩

/-- **Where lookups succeed, every entry of the list has a name or is waiting for one**; at
rest every entry has one. -/
theorem names_complete {sender : Option String} {users : String → Option Document}
    {es : List (Event NameCall Bool)} {c : Config NamedList Lookup}
    (hrun : names.machine.run ⟨.start sender users, []⟩ es = some c)
    (hresolves : names.machine.Along (Service.OnAnswer Resolves) ⟨.start sender users, []⟩ es) :
    Covered c.core c.pending ∧ (c.pending = [] → ∀ user ∈ c.core.vm.listener,
      ∀ m ∈ c.core.vm.recentMessages,
        c.core.idToUserNames (ChatListVM.idForRetrieval user m) ≠ none) := by
  have hcovered : Covered c.core c.pending := by
    refine Service.run_inv (I := Covered) ?_ ?_ ?_ hresolves hrun
    · intro s ops x s' new h _ hx
      exact covered_call h hx
    · intro s pre op post ok s' new h hP hx
      exact covered_answer h (Service.onStep_answer.mp hP) hx
    · exact fun user _ m hm => absurd hm List.not_mem_nil
  refine ⟨hcovered, fun hquiet user huser m hm => ?_⟩
  refine (hcovered user huser m hm).resolve_right ?_
  rintro ⟨op, hop, -⟩
  rw [hquiet] at hop
  exact List.not_mem_nil hop

/-! ### A list with one entry -/

def bobsProfile : Auth.User := ⟨none, "Bob", "Ray", "bob@duke.edu", "Duke University"⟩

/-- Ann's list is given her chat with Bob, and his name is looked up. -/
def bobIsNamed : List (Event NameCall Bool) :=
  [.call (.snapshot [⟨.added, "bob", (chatWith "bob" "hi" 1).2⟩]), .answer 0 true, .answer 0 true]

/-- Bob is the only one with a profile. -/
def onlyBobsProfile (uid : String) : Option Document :=
  if uid = "bob" then some bobsProfile.encode else none

theorem names_held_example : ∃ c es₁ es₂ c',
    names.machine.run ⟨.start (some "ann") onlyBobsProfile, []⟩ bobIsNamed = some c ∧
    c.core.idToUserNames "bob" = some "Bob Ray" ∧ bobIsNamed = es₁ ++ es₂ ∧
    names.machine.run ⟨.start (some "ann") onlyBobsProfile, []⟩ es₁ = some c' ∧
    nameFromDocument "bob" (c'.core.users "bob") = some "Bob Ray" := by
  have hrun : ∃ c, names.machine.run ⟨.start (some "ann") onlyBobsProfile, []⟩ bobIsNamed =
      some c ∧ c.core.idToUserNames "bob" = some "Bob Ray" := ⟨_, rfl, rfl⟩
  obtain ⟨c, hrun, hname⟩ := hrun
  obtain ⟨es₁, es₂, c', hsplit, hrun', hheld⟩ := names_held hrun hname
  exact ⟨c, es₁, es₂, c', hrun, hname, hsplit, hrun', hheld⟩

theorem names_complete_example : ∃ c,
    names.machine.run ⟨.start (some "ann") onlyBobsProfile, []⟩ bobIsNamed = some c ∧
    ∀ m ∈ c.core.vm.recentMessages,
      c.core.idToUserNames (ChatListVM.idForRetrieval "ann" m) ≠ none := by
  have hrun : ∃ c, names.machine.run ⟨.start (some "ann") onlyBobsProfile, []⟩ bobIsNamed =
      some c ∧ c.pending = [] ∧ c.core.vm.listener = some "ann" := ⟨_, rfl, rfl, rfl⟩
  obtain ⟨c, hrun, hquiet, huser⟩ := hrun
  have hresolves : names.machine.Along (Service.OnAnswer Resolves)
      ⟨.start (some "ann") onlyBobsProfile, []⟩ bobIsNamed := by
    refine ⟨trivial, fun c hc => ?_⟩
    obtain rfl := Option.some.inj hc
    refine ⟨?_, fun c hc => ?_⟩
    · intro op hop
      obtain rfl := Option.some.inj hop
      exact ⟨rfl, fun id document heq => absurd heq (by simp)⟩
    obtain rfl := Option.some.inj hc
    refine ⟨?_, fun c hc => trivial⟩
    intro op hop
    obtain rfl := Option.some.inj hop
    refine ⟨rfl, fun id document heq => ?_⟩
    obtain ⟨rfl, rfl⟩ := Lookup.response.inj heq
    exact Option.some_ne_none _
  exact ⟨c, hrun, (names_complete hrun hresolves).2 hquiet "ann" huser⟩

end Subtle.Chat
