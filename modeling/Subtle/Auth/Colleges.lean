import Subtle.Auth.Email
import Subtle.Lib.Positions
import Mathlib.Data.List.Sort
import Mathlib.Data.List.Dedup

/-!
# The list of universities

The form offers a `College` for each entry of the API response, with the first of its
domains only.  An entry without a domain traps.

* `fetchColleges`: the list, for an order in which the runtime enumerates sets.
* `of_fetchColleges`: what it has; `exists_fetchColleges`: when it is there.
* `fetchColleges_iff`: **every entry can be used to sign up exactly when all have domains,
  and each of these is the first one of some entry of the same name**.
-/

namespace Subtle.Auth

open Subtle.Lib

/-- An order in which the elements of a list are enumerated once they are in a set. -/
structure SetOrder (α : Type*) where
  array : List α → List α
  nodup : ∀ elements, (array elements).Nodup
  mem_iff : ∀ elements a, a ∈ array elements ↔ a ∈ elements

/-- The order in which the elements come last in the list. -/
def SetOrder.dedup {α : Type*} [DecidableEq α] : SetOrder α :=
  ⟨List.dedup, List.nodup_dedup, fun _ _ => List.mem_dedup⟩

structure CollegeAPIResponse where
  name : String
  domains : List String
  deriving DecidableEq

namespace CollegeAPIService

/-- The names of the universities. -/
def fetch (order : SetOrder String) (responseData : List CollegeAPIResponse) : List String :=
  (order.array (responseData.map CollegeAPIResponse.name)).insertionSort (· ≤ ·)

/-- An entry as a `College`, unless `domains[0]` traps. -/
def college? (entry : CollegeAPIResponse) : Option College :=
  (entry.domains[0]?).map fun domain => ⟨entry.name, domain⟩

def fetchColleges (order : SetOrder College) (responseData : List CollegeAPIResponse) :
    Option (List College) :=
  (responseData.mapM college?).map fun colleges =>
    (order.array colleges).insertionSort fun c c' => c.name ≤ c'.name

variable {responseData : List CollegeAPIResponse} {result : List College}

theorem college?_eq_some_iff {entry : CollegeAPIResponse} {college : College} :
    college? entry = some college ↔
      entry.name = college.name ∧ entry.domains[0]? = some college.domain := by
  rw [college?, Option.map_eq_some_iff]
  constructor
  · rintro ⟨domain, hdomain, rfl⟩
    exact ⟨rfl, hdomain⟩
  · rintro ⟨hname, hdomain⟩
    exact ⟨college.domain, hdomain, by rw [hname]⟩

theorem college?_ne_none_iff {entry : CollegeAPIResponse} :
    college? entry ≠ none ↔ entry.domains ≠ [] := by
  cases hdomains : entry.domains <;> simp [college?, hdomains]

/-- **A list that is fetched** is sorted, and has the college of every entry once. -/
theorem of_fetchColleges {order : SetOrder College}
    (h : fetchColleges order responseData = some result) :
    (∀ entry ∈ responseData, entry.domains ≠ []) ∧ result.Nodup ∧
      result.Pairwise (fun c c' => c.name ≤ c'.name) ∧
      ∀ college, college ∈ result ↔ ∃ entry ∈ responseData, college? entry = some college := by
  obtain ⟨colleges, hcolleges, rfl⟩ := Option.map_eq_some_iff.mp h
  have hmap := mapM_eq_some_iff.mp hcolleges
  refine ⟨fun entry hentry => ?_, ?_, ?_, fun college => ?_⟩
  · have hin : college? entry ∈ colleges.map some := hmap ▸ List.mem_map_of_mem hentry
    obtain ⟨college, -, hcollege⟩ := List.mem_map.mp hin
    exact college?_ne_none_iff.mp (hcollege ▸ Option.some_ne_none college)
  · exact (List.perm_insertionSort _ _).nodup_iff.mpr (order.nodup colleges)
  · exact List.pairwise_insertionSort _ _
  · have hin : college ∈ colleges ↔ some college ∈ colleges.map some :=
      (List.mem_map_of_injective (Option.some_injective College)).symm
    rw [List.mem_insertionSort, order.mem_iff, hin, ← hmap, List.mem_map]

/-- The call traps on an entry without a domain, and on nothing else. -/
theorem exists_fetchColleges (order : SetOrder College) :
    (∃ result, fetchColleges order responseData = some result) ↔
      ∀ entry ∈ responseData, entry.domains ≠ [] := by
  constructor
  · rintro ⟨result, h⟩
    exact (of_fetchColleges h).1
  · intro h
    obtain ⟨colleges, hcolleges⟩ :=
      exists_map_some fun entry hentry => college?_ne_none_iff.mpr (h entry hentry)
    exact ⟨_, Option.map_eq_some_iff.mpr ⟨colleges, mapM_eq_some_iff.mpr hcolleges, rfl⟩⟩

end CollegeAPIService

open CollegeAPIService

/-- The college accepts every address of the domain. -/
def College.Accepts (college : College) (domain : String) : Prop :=
  ∀ (vm : AuthVM) (localPart : String), localPart ≠ "" → '@' ∉ localPart.toList →
    { vm with email := localPart ++ "@" ++ domain, university := college }.emailIsValid = true

theorem College.accepts_iff {college : College} {domain : String} : college.Accepts domain ↔
    college.domain = String.ofList (domain.toList.takeWhile (· != '@')) := by
  have hvalid : ∀ (vm : AuthVM) (localPart : String), '@' ∉ localPart.toList →
      ({ vm with email := localPart ++ "@" ++ domain, university := college }.emailIsValid = true ↔
        college.domain = String.ofList (domain.toList.takeWhile (· != '@'))) := by
    intro vm localPart hlocal
    rw [emailIsValid_of_eq hlocal (eq_at_iff.mp rfl), eq_comm (a := college.domain),
      String.ofList_eq]
  constructor
  · exact fun h => (hvalid AuthVM.init "a" (by decide)).mp (h _ "a" (by decide) (by decide))
  · exact fun h vm localPart _ hlocal => (hvalid vm localPart hlocal).mpr h

/-- **The list offers a college for every domain of every entry**, once and in order. -/
structure Usable (responseData : List CollegeAPIResponse) (result : List College) : Prop where
  once : result.Nodup
  sorted : result.Pairwise fun c c' => c.name ≤ c'.name
  usable : ∀ entry ∈ responseData, ∀ domain ∈ entry.domains,
    ∃ college ∈ result, college.name = entry.name ∧ college.Accepts domain

/-- Every entry has a domain, and every domain, up to an `@` in it, is the first one of some
entry of the same name. -/
structure AllFirst (responseData : List CollegeAPIResponse) : Prop where
  domains_ne_nil : ∀ entry ∈ responseData, entry.domains ≠ []
  first : ∀ entry ∈ responseData, ∀ domain ∈ entry.domains, ∃ entry' ∈ responseData,
    entry'.name = entry.name ∧
      entry'.domains[0]? = some (String.ofList (domain.toList.takeWhile (· != '@')))

/-- **Every listed university can be used to sign up exactly when all domains are first.** -/
theorem fetchColleges_iff (order : SetOrder College) (responseData : List CollegeAPIResponse) :
    (∃ result, fetchColleges order responseData = some result ∧ Usable responseData result) ↔
      AllFirst responseData := by
  constructor
  · rintro ⟨result, hresult, husable⟩
    obtain ⟨hdomains, -, -, hmem⟩ := of_fetchColleges hresult
    refine ⟨hdomains, fun entry hentry domain hdomain => ?_⟩
    obtain ⟨college, hcollege, hname, haccepts⟩ := husable.usable entry hentry domain hdomain
    obtain ⟨entry', hentry', hsome⟩ := (hmem college).mp hcollege
    obtain ⟨hname', hfirst⟩ := college?_eq_some_iff.mp hsome
    exact ⟨entry', hentry', hname'.trans hname, by rw [hfirst, College.accepts_iff.mp haccepts]⟩
  · rintro ⟨hdomains, hfirst⟩
    obtain ⟨result, hresult⟩ := (exists_fetchColleges order).mpr hdomains
    obtain ⟨-, hnodup, hsorted, hmem⟩ := of_fetchColleges hresult
    refine ⟨result, hresult, hnodup, hsorted, fun entry hentry domain hdomain => ?_⟩
    obtain ⟨entry', hentry', hname, hsome⟩ := hfirst entry hentry domain hdomain
    exact ⟨⟨entry'.name, _⟩, (hmem _).mpr ⟨entry', hentry', college?_eq_some_iff.mpr ⟨rfl, hsome⟩⟩,
      hname, College.accepts_iff.mpr rfl⟩

/-- An entry without a domain traps. -/
theorem fetchColleges_trap : ¬ ∀ (order : SetOrder College)
    (responseData : List CollegeAPIResponse), ∃ result,
      fetchColleges order responseData = some result ∧ Usable responseData result := by
  intro h
  obtain ⟨result, hresult, -⟩ := h .dedup [⟨"Duke University", []⟩]
  exact Option.some_ne_none result hresult.symm

/-- Only the first domain of an entry is offered. -/
example : fetchColleges .dedup
    [⟨"Marywood University", ["m.marywood.edu", "marywood.edu"]⟩, ⟨"Duke University", ["duke.edu"]⟩,
      ⟨"Duke University", ["duke.edu"]⟩] =
    some [⟨"Duke University", "duke.edu"⟩, ⟨"Marywood University", "m.marywood.edu"⟩] := by
  decide +kernel

end Subtle.Auth
