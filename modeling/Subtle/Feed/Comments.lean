import Subtle.Firestore.Value
import Subtle.Lib.Machine
import Subtle.Lib.Snapshot
import Mathlib.Data.List.DropRight

/-!
# The comments of a post

`getComments` offers every added document to two callbacks: at once to `newComment`,
and after the last change, in one batch with the others, to `onSuccess`.  The first
takes effect while some comment is shown, the second while none is.

* `commentView`: a view that loads comments when it appears and removes the listener
  when it disappears, over the snapshots that the listener is given.
* `comments_eq_delivered`: **the comments shown are those added since the last load,
  in their order and once each**.
-/

namespace Subtle.Feed

open Subtle.Firestore Subtle.Lib

/-! ### Decoding a comment -/

structure CommentModel where
  id : String
  postId : String
  comment : String
  username : String
  date : Int
  ownerId : String
  deriving DecidableEq

mutual

/-- What `JSONSerialization` takes for an object: there are no timestamps in JSON. -/
def isValidJSONObject : Value → Bool
  | .null | .bool _ | .number _ | .string _ => true
  | .timestamp _ => false
  | .array vs => isValidJSONArray vs
  | .map kvs => isValidJSONMap kvs

def isValidJSONArray : List Value → Bool
  | [] => true
  | v :: vs => isValidJSONObject v && isValidJSONArray vs

def isValidJSONMap : List (String × Value) → Bool
  | [] => true
  | (_, v) :: kvs => isValidJSONObject v && isValidJSONMap kvs

end

def isHexDigit (c : Char) : Bool :=
  c.isDigit || ('a' ≤ c && c ≤ 'f') || ('A' ≤ c && c ≤ 'F')

/-- `UUID(uuidString: s)`, as its `uuidString`. -/
def uuid (s : String) : Option String :=
  let groups := s.toList.splitOn '-'
  if groups.map List.length = [8, 4, 4, 4, 12] ∧ groups.flatten.all isHexDigit then
    some s.toUpper
  else none

/-- How a decoding ends.  An exception of `JSONSerialization` is not a Swift error, and
`try?` does not catch it. -/
inductive Decoding where
  | raises
  | throws
  | returns (comment : CommentModel)

def asNumber : Value → Option Int
  | .number n => some n
  | _ => none

/-- `CommentModel.init(fromDictionary: dict)` -/
def CommentModel.fromDictionary (dict : Fields) : Decoding :=
  if isValidJSONMap dict then
    let decoded : Option CommentModel := do
      let id ← ((dict.document "id").bind Value.asString).bind uuid
      let postId ← (dict.document "postId").bind Value.asString
      let comment ← (dict.document "comment").bind Value.asString
      let username ← (dict.document "username").bind Value.asString
      let date ← (dict.document "date").bind asNumber
      let ownerId ← (dict.document "ownerId").bind Value.asString
      return { id, postId, comment, username, date, ownerId }
    decoded.elim .throws .returns
  else .raises

/-! ### The service -/

/-- A registered listener, which is given snapshots until it is removed. -/
structure ListenerRegistration where
  postId : String
  removed : Bool
  deriving DecidableEq

structure CommentService where
  isLoading : Bool
  comments : List CommentModel
  postId : String
  listener : Option ListenerRegistration
  deriving DecidableEq

namespace CommentService

def init : CommentService := ⟨false, [], "", none⟩

/-- The callback for one added document. -/
def newComment (s : CommentService) (comment : CommentModel) : CommentService :=
  if s.comments ≠ [] then { s with comments := s.comments ++ [comment] } else s

/-- The callback for the documents added by a snapshot. -/
def onSuccess (s : CommentService) (comments : List CommentModel) : CommentService :=
  if s.comments = [] then { s with comments } else s

/-- The loop over the changes of a snapshot, with the batch so far. -/
def handleChanges : CommentService → List CommentModel → List (Change String Fields) →
    Option (CommentService × List CommentModel)
  | s, comments, [] => some (s, comments)
  | s, comments, diff :: diffs =>
      if diff.kind = .added then
        match CommentModel.fromDictionary diff.document with
        | .raises => none
        -- the `return` leaves the closure of this change
        | .throws => handleChanges s comments diffs
        | .returns decoded => handleChanges (s.newComment decoded) (comments ++ [decoded]) diffs
      else handleChanges s comments diffs

/-- The listener of `getComments`. -/
def handleSnapshot (s : CommentService) : Option (List (Change String Fields)) →
    Option CommentService
  | none => some s
  | some documentChanges =>
      (handleChanges s [] documentChanges).map fun p => p.1.onSuccess p.2

def loadComment (s : CommentService) : CommentService :=
  { s with comments := [], isLoading := true, listener := some ⟨s.postId, false⟩ }

/-- The listener is given snapshots. -/
def listening (s : CommentService) : Bool := s.listener.any fun listener => !listener.removed

end CommentService

inductive CommentEvent where
  | onAppear (postId : Option String)
  | onDisappear
  | snapshot (documentChanges : Option (List (Change String Fields)))

/-- `CommentView`, which appears again only after it has disappeared. -/
def CommentService.step (s : CommentService) : CommentEvent → Option CommentService
  | .onAppear postId =>
      if s.listening then none
      else some (postId.elim s fun postId => { s with postId }.loadComment)
  | .onDisappear =>
      some { s with listener := s.listener.map fun listener => { listener with removed := true } }
  | .snapshot documentChanges => if s.listening then s.handleSnapshot documentChanges else none

def commentView : Machine CommentService CommentEvent := ⟨CommentService.step⟩

/-! ### What is delivered -/

/-- The comment of an added document that decodes. -/
def addedComment (change : Change String Fields) : Option CommentModel :=
  if change.kind = .added then
    match CommentModel.fromDictionary change.document with
    | .returns comment => some comment
    | _ => none
  else none

namespace CommentEvent

/-- The view calls `loadComment`. -/
def loads : CommentEvent → Bool
  | .onAppear (some _) => true
  | _ => false

/-- The comments that a snapshot adds. -/
def added : CommentEvent → List CommentModel
  | .snapshot (some documentChanges) => documentChanges.filterMap addedComment
  | _ => []

end CommentEvent

/-- The comments added since the last load. -/
def delivered (es : List CommentEvent) : List CommentModel :=
  (es.rtakeWhile fun e => !e.loads).flatMap CommentEvent.added

theorem delivered_concat (es : List CommentEvent) (e : CommentEvent) :
    delivered (es ++ [e]) = if e.loads then [] else delivered es ++ e.added := by
  rw [delivered, List.rtakeWhile_concat]
  cases e.loads <;> simp [delivered]

/-! ### What is shown -/

namespace CommentService

@[simp] theorem comments_newComment (s : CommentService) (comment : CommentModel) :
    (s.newComment comment).comments =
      if s.comments = [] then [] else s.comments ++ [comment] := by
  unfold newComment
  split_ifs <;> simp_all

@[simp] theorem comments_onSuccess (s : CommentService) (batch : List CommentModel) :
    (s.onSuccess batch).comments = if s.comments = [] then batch else s.comments := by
  unfold onSuccess
  split_ifs <;> rfl

/-- What the loop over the changes adds to a list of comments. -/
theorem handleChanges_cons {s : CommentService} {batch : List CommentModel}
    {change : Change String Fields} {changes : List (Change String Fields)}
    {p : CommentService × List CommentModel}
    (h : handleChanges s batch (change :: changes) = some p) :
    (addedComment change = none ∧ handleChanges s batch changes = some p) ∨
    ∃ comment, addedComment change = some comment ∧
      handleChanges (s.newComment comment) (batch ++ [comment]) changes = some p := by
  rw [handleChanges] at h
  unfold addedComment
  split at h
  · split at h
    · exact absurd h (Option.some_ne_none p).symm
    · left
      simp_all
    · right
      simp_all
  · left
    simp_all

/-- **The loop over the changes** adds their comments to the batch, and to the comments
shown unless there are none. -/
theorem handleChanges_eq {changes : List (Change String Fields)} {s t : CommentService}
    {batch batch' : List CommentModel} (h : handleChanges s batch changes = some (t, batch')) :
    batch' = batch ++ changes.filterMap addedComment ∧
      t.comments =
        if s.comments = [] then [] else s.comments ++ changes.filterMap addedComment := by
  induction changes generalizing s batch with
  | nil =>
    obtain ⟨rfl, rfl⟩ := Prod.mk.inj (Option.some.inj h)
    rw [List.filterMap_nil, List.append_nil, List.append_nil]
    refine ⟨rfl, ?_⟩
    split_ifs with hnone
    · exact hnone
    · rfl
  | cons change changes ih =>
    rcases handleChanges_cons h with ⟨hnone, hrest⟩ | ⟨comment, hsome, hrest⟩
    · rw [List.filterMap_cons_none hnone]
      exact ih hrest
    · obtain ⟨hbatch, hcomments⟩ := ih hrest
      rw [List.filterMap_cons_some hsome, hbatch, hcomments, comments_newComment]
      refine ⟨by rw [List.append_assoc, List.singleton_append], ?_⟩
      by_cases hshown : s.comments = []
      · rw [if_pos hshown, if_pos rfl, if_pos hshown]
      · have happended : s.comments ++ [comment] ≠ [] :=
          List.append_ne_nil_of_left_ne_nil hshown _
        rw [if_neg hshown, if_neg happended, if_neg hshown, List.append_assoc,
          List.singleton_append]

/-- The loop over the changes completes where no added document raises. -/
theorem exists_handleChanges {changes : List (Change String Fields)} {s : CommentService}
    {batch : List CommentModel}
    (h : ∀ change ∈ changes, CommentModel.fromDictionary change.document ≠ .raises) :
    ∃ p, handleChanges s batch changes = some p := by
  induction changes generalizing s batch with
  | nil => exact ⟨_, rfl⟩
  | cons change changes ih =>
    obtain ⟨hchange, hrest⟩ := List.forall_mem_cons.mp h
    rw [handleChanges]
    split
    · split
      · next hraises => exact absurd hraises hchange
      · exact ih hrest
      · exact ih hrest
    · exact ih hrest

/-- **A snapshot adds each of its comments once**, through one callback or the other. -/
theorem comments_handleSnapshot {s t : CommentService} {changes : List (Change String Fields)}
    (h : s.handleSnapshot (some changes) = some t) :
    t.comments = s.comments ++ changes.filterMap addedComment := by
  obtain ⟨⟨u, batch⟩, hloop, rfl⟩ := Option.map_eq_some_iff.mp h
  obtain ⟨rfl, hcomments⟩ := handleChanges_eq hloop
  rw [comments_onSuccess, hcomments]
  by_cases hnone : s.comments = []
  · simp [hnone]
  · simp [hnone]

theorem comments_step {s t : CommentService} {e : CommentEvent} (h : s.step e = some t) :
    t.comments = if e.loads then [] else s.comments ++ e.added := by
  cases e with
  | onAppear postId =>
    obtain ⟨-, heq⟩ := Option.ite_none_left_eq_some.mp h
    obtain rfl := Option.some.inj heq
    cases postId with
    | none => simp [CommentEvent.loads, CommentEvent.added]
    | some postId => rfl
  | onDisappear =>
    obtain rfl := Option.some.inj h
    simp [CommentEvent.loads, CommentEvent.added]
  | snapshot documentChanges =>
    obtain ⟨-, hhandle⟩ := Option.ite_none_right_eq_some.mp h
    cases documentChanges with
    | none =>
      obtain rfl := Option.some.inj hhandle
      simp [CommentEvent.loads, CommentEvent.added]
    | some changes => exact comments_handleSnapshot hhandle

/-- **The comments shown are those added since the last load**, in their order and once
each. -/
theorem comments_eq_delivered {s : CommentService} {es : List CommentEvent}
    (hrun : commentView.run init es = some s) : s.comments = delivered es := by
  refine Machine.run_trace_inv (I := fun s es => s.comments = delivered es) ?_ (h := []) rfl hrun
  intro s es e t hs hstep
  rw [delivered_concat, ← hs]
  exact comments_step hstep

/-- The document of a comment on `post`. -/
def commentDocument (comment : String) : Fields :=
  [("id", .string "0b6f1d2e-6a3c-4f6e-9a57-3d1f0c9b2a11"), ("postId", .string "post"),
    ("comment", .string comment), ("username", .string "Bob Ray"), ("date", .number 1),
    ("ownerId", .string "bob")]

/-- An empty first snapshot, and then two comments with a document that does not decode
between them; the view is left and opened again. -/
def twoVisits : List CommentEvent :=
  [.onAppear (some "post"), .snapshot (some []),
    .snapshot (some [⟨.added, "c1", commentDocument "hi"⟩, ⟨.added, "c2", []⟩,
      ⟨.modified, "c1", commentDocument "hey"⟩, ⟨.added, "c3", commentDocument "you"⟩]),
    .onDisappear, .onAppear (some "post"), .snapshot none,
    .snapshot (some [⟨.added, "c1", commentDocument "hey"⟩]),
    .snapshot (some [⟨.removed, "c2", []⟩, ⟨.added, "c4", commentDocument "all"⟩])]

theorem comments_eq_delivered_example : ∃ s, commentView.run init twoVisits = some s ∧
    s.comments = delivered twoVisits :=
  ⟨_, rfl, comments_eq_delivered rfl⟩

end CommentService

end Subtle.Feed
