import Subtle.Feed.FeedView

/-!
# The search for a location

`LocationService` shows completions of what the user types.  It hands a debounced
fragment to a search completer, which calls back with results or with an error, perhaps
after the fragment has changed.  The completions outside the United States are left out
of the results, but not of the test that sets the status.

* `location`: the service as a machine.
* `status_matches_iff`: **the status matches the results after every event exactly when
  every delivery is empty, or has a location in it and comes while something is searched**.
-/

namespace Subtle.Feed

open Subtle.Lib

/-- `MKLocalSearchCompletion`. -/
structure Completion where
  title : String
  subtitle : String
  deriving DecidableEq

inductive LocationStatus where
  | idle
  | noResults
  | isSearching
  | error (description : String)
  | result
  deriving DecidableEq

structure LocationService where
  status : LocationStatus
  searchResults : List String
  /-- The query fragment of the search completer. -/
  searchCompleter : String
  /-- The last debounced fragment, empty before there was one. -/
  fragment : String
  deriving DecidableEq

section

-- the function of the same name of strings
variable (contains : String → String → Bool)

/-- A completion that is offered as a location. -/
def Completion.isLocation (completion : Completion) : Bool :=
  contains completion.title ", " && contains completion.subtitle "United States"

namespace LocationService

def start : LocationService := ⟨.idle, [], "", ""⟩

/-- What the service does with a debounced fragment. -/
def receiveValue (service : LocationService) (fragment : String) : LocationService :=
  if fragment ≠ "" then
    { service with status := .isSearching, searchCompleter := fragment, fragment := fragment }
  else { service with status := .idle, searchResults := [], fragment := fragment }

def completerDidUpdateResults (service : LocationService) (results : List Completion) :
    LocationService :=
  { service with
    searchResults := (results.filter (Completion.isLocation contains)).map Completion.title
    status := if results.isEmpty then .noResults else .result }

def didFailWithError (service : LocationService) (description : String) : LocationService :=
  { service with status := .error description }

end LocationService

/-- A debounced fragment, or a call of the search completer about some fragment. -/
inductive LocationEvent where
  | fragment (fragment : String)
  | results (results : List Completion)
  | error (description : String)
  deriving DecidableEq

def LocationService.handle (service : LocationService) : LocationEvent → LocationService
  | .fragment fragment => service.receiveValue fragment
  | .results results => service.completerDidUpdateResults contains results
  | .error description => service.didFailWithError description

def location : Machine LocationService LocationEvent := .total (LocationService.handle contains)

/-- Without results to show the status does not promise any, and with the status of a
result there is one, of a search. -/
structure LocationService.StatusMatches (service : LocationService) : Prop where
  nothing : service.status = .idle ∨ service.status = .noResults → service.searchResults = []
  something : service.status = .result → service.searchResults ≠ [] ∧ service.fragment ≠ ""

/-- The results are none at all, or some location is among them and a fragment is searched. -/
def InTime (service : LocationService) : LocationEvent → Prop
  | .results results =>
      results = [] ∨
        (∃ completion ∈ results, completion.isLocation contains) ∧ service.fragment ≠ ""
  | _ => True

instance (service : LocationService) (e : LocationEvent) : Decidable (InTime contains service e) :=
  match e with
  | .results results => inferInstanceAs (Decidable (results = [] ∨ _))
  | .fragment _ => isTrue trivial
  | .error _ => isTrue trivial

namespace LocationService

variable {contains} {service : LocationService}

theorem statusMatches_receiveValue (fragment : String) :
    (service.receiveValue fragment).StatusMatches := by
  unfold receiveValue
  split
  · exact ⟨fun h => by simp at h, fun h => by simp at h⟩
  · exact ⟨fun _ => rfl, fun h => by simp at h⟩

theorem statusMatches_didFailWithError (description : String) :
    (service.didFailWithError description).StatusMatches :=
  ⟨fun h => by simp [didFailWithError] at h, fun h => by simp [didFailWithError] at h⟩

theorem searchResults_ne_nil {results : List Completion} :
    (service.completerDidUpdateResults contains results).searchResults ≠ [] ↔
      ∃ completion ∈ results, completion.isLocation contains := by
  show (results.filter (Completion.isLocation contains)).map Completion.title ≠ [] ↔ _
  rw [Ne, List.map_eq_nil_iff, List.filter_eq_nil_iff]
  simp only [not_forall, not_not, exists_prop]

/-- **What a delivery must be** for the status to match. -/
theorem statusMatches_completerDidUpdateResults {results : List Completion} :
    (service.completerDidUpdateResults contains results).StatusMatches ↔
      InTime contains service (.results results) := by
  cases results with
  | nil =>
    refine iff_of_true ⟨fun _ => rfl, fun h => ?_⟩ (Or.inl rfl)
    exact absurd h (by simp [completerDidUpdateResults])
  | cons completion results =>
    have hstatus :
        (service.completerDidUpdateResults contains (completion :: results)).status = .result := rfl
    constructor
    · intro h
      obtain ⟨hresults, hfragment⟩ := h.something hstatus
      exact Or.inr ⟨searchResults_ne_nil.mp hresults, hfragment⟩
    · intro h
      obtain ⟨hresults, hfragment⟩ := h.resolve_left (List.cons_ne_nil _ _)
      refine ⟨fun hnothing => ?_, fun _ => ⟨searchResults_ne_nil.mpr hresults, hfragment⟩⟩
      rw [hstatus] at hnothing
      exact absurd hnothing (by decide)

/-- After an event the status matches exactly when the event came in time. -/
theorem statusMatches_handle (e : LocationEvent) :
    (service.handle contains e).StatusMatches ↔ InTime contains service e := by
  cases e with
  | fragment fragment => exact iff_of_true (statusMatches_receiveValue fragment) trivial
  | results results => exact statusMatches_completerDidUpdateResults
  | error description => exact iff_of_true (statusMatches_didFailWithError description) trivial

theorem statusMatches_start : start.StatusMatches :=
  ⟨fun _ => rfl, fun h => absurd h (by decide)⟩

end LocationService

/-- **The status matches the results in every state of a run exactly when all deliveries
come in time.** -/
theorem status_matches_iff (es : List LocationEvent) :
    (location contains).Always LocationService.StatusMatches .start es ↔
      (location contains).Along (InTime contains) .start es := by
  refine Machine.always_iff (J := fun _ => True) (fun _ _ _ _ _ => trivial) ?_ trivial
    LocationService.statusMatches_start (Machine.run_total (LocationService.handle contains) _ _)
  intro service e service' _ _ hstep
  obtain rfl := Option.some.inj hstep
  exact LocationService.statusMatches_handle e

end

/-- Results that are all abroad leave an empty list under the status of a result, and
results that come after the search was emptied leave that status without a search. -/
theorem status_without_match : ¬ ∀ (contains : String → String → Bool) (es : List LocationEvent)
    (service : LocationService), (location contains).run .start es = some service →
      (service.status = .idle ∨ service.status = .noResults → service.searchResults = []) ∧
      (service.status = .result → service.searchResults ≠ [] ∧ service.fragment ≠ "") := by
  intro h
  have habroad : (location isPart).run .start
      [.fragment "Paris", .results [⟨"Paris, France", "France"⟩]] =
        some ⟨.result, [], "Paris", "Paris"⟩ := by decide +kernel
  exact absurd rfl ((h isPart _ _ habroad).2 rfl).1

/-- A location of a search that has been emptied is shown, too. -/
example : (location isPart).run .start [.fragment "Durham", .fragment "",
    .results [⟨"Durham, NC", "United States"⟩]] =
      some ⟨.result, ["Durham, NC"], "Durham", ""⟩ := by decide +kernel

end Subtle.Feed
