import Subtle.Index.Triggers

/-!
# The index against a full rebuild

A full rebuild saves, for each post there is, the object that `onPostCreated` makes
of the post's current data.  The triggers build a record another way: the object of
the first version, and then one merge for each later version.  A merge keeps an
attribute that the post no longer has, and it does not compute
`creationTimestamp`.

* `tracks_run`: the record of a post is the merge of its versions since it was
  created.
* `index_eq_rebuild_iff`: **the index is the full rebuild exactly when no post has
  lost a field or moved its creation date**.
-/

namespace Subtle.Index

open Subtle.Firestore Subtle.Lib

/-! ### The versions of a post -/

/-- The versions since the post was created, after one more change. -/
def Change.extend (vs : List Document) : Change → List Document
  | create post => [post]
  | update post => vs ++ [post]
  | delete => []

/-- The versions of a post since it was created, the current one last. -/
def versions (ws : List (String × Change)) (id : String) : List Document :=
  ws.foldl (fun vs w => if w.1 = id then w.2.extend vs else vs) []

theorem versions_concat (ws : List (String × Change)) (w : String × Change) (id : String) :
    versions (ws ++ [w]) id =
      if w.1 = id then w.2.extend (versions ws id) else versions ws id := by
  rw [versions, List.foldl_append]
  rfl

variable {getTime : Option Value → Value}

/-- The record that the triggers leave for the versions of a post. -/
def merged (getTime : Option Value → Value) (id : String) : List Document → Option Document
  | [] => none
  | first :: later => some
      ((createdObject getTime id first).overwriteAll (later.map (modifiedObject getTime id)))

theorem commit_extend {change : Change} {vs : List Document} {post : Option Document}
    (h : change.commit vs.getLast? = some post) : (change.extend vs).getLast? = post := by
  cases change with
  | create post' =>
    cases hvs : vs.getLast? with
    | none =>
      rw [hvs] at h
      exact Option.some.inj h
    | some v =>
      rw [hvs] at h
      exact absurd h (by simp [Change.commit])
  | update post' =>
    cases hvs : vs.getLast? with
    | none =>
      rw [hvs] at h
      exact absurd h (by simp [Change.commit])
    | some v =>
      rw [hvs] at h
      rw [Change.extend, List.getLast?_concat]
      exact Option.some.inj h
  | delete =>
    cases hvs : vs.getLast? with
    | none =>
      rw [hvs] at h
      exact absurd h (by simp [Change.commit])
    | some v =>
      rw [hvs] at h
      exact Option.some.inj h

theorem merged_extend {id : String} {change : Change} {vs : List Document}
    {post : Option Document} (h : change.commit vs.getLast? = some post) :
    merged getTime id (change.extend vs) = change.next getTime id (merged getTime id vs) := by
  cases change with
  | create post' => rfl
  | update post' =>
    cases vs with
    | nil => exact absurd h (by simp [Change.commit])
    | cons first later =>
      show some (Record.overwriteAll _ ((later ++ [post']).map _)) = some (Record.overwrite _ _)
      rw [List.map_append, List.map_singleton, Record.overwriteAll_concat]
  | delete => rfl

/-- Posts and index are those of the versions. -/
def Tracks (getTime : Option Value → Value) (s : Site) (ws : List (String × Change)) : Prop :=
  ∀ id, s.posts id = (versions ws id).getLast? ∧ s.index id = merged getTime id (versions ws id)

theorem tracks_step {s s' : Site} {ws : List (String × Change)} {w : String × Change}
    (h : Tracks getTime s ws) (hstep : (site getTime).step s w = some s') :
    Tracks getTime s' (ws ++ [w]) := by
  obtain ⟨post, hcommit, rfl⟩ := Option.map_eq_some_iff.mp hstep
  rw [(h w.1).1] at hcommit
  intro id
  rw [versions_concat]
  by_cases hid : w.1 = id
  · subst hid
    rw [if_pos rfl]
    refine ⟨?_, ?_⟩
    · rw [commit_extend hcommit]
      exact Function.update_self w.1 post s.posts
    · rw [merged_extend hcommit, ← (h w.1).2]
      exact (handle_apply w.1 w.1 w.2 s.index).trans (if_pos rfl)
  · rw [if_neg hid]
    refine ⟨?_, ?_⟩
    · rw [← (h id).1]
      exact Function.update_of_ne (Ne.symm hid) post s.posts
    · rw [← (h id).2]
      exact (handle_apply w.1 id w.2 s.index).trans (if_neg (Ne.symm hid))

theorem tracks_run {s : Site} {ws : List (String × Change)}
    (h : (site getTime).run Site.empty ws = some s) : Tracks getTime s ws := by
  have hstart : Tracks getTime Site.empty [] := fun _ => ⟨rfl, rfl⟩
  exact Machine.run_trace_inv (fun _ _ _ _ => tracks_step) hstart h

/-! ### One record -/

/-- The current version has every field that a version since the creation had, and
the creation timestamp in force is that of its creation date. -/
structure Kept (getTime : Option Value → Value) (first : Document) (later : List Document) :
    Prop where
  fields : ∀ k, k ∉ derived → (∃ v ∈ first :: later, v k ≠ none) → later.getLastD first k ≠ none
  creation : ((later.filterMap (· "creationTimestamp")).getLast?).getD
    (getTime (first "creationDate")) = getTime (later.getLastD first "creationDate")

theorem merged_objectID (id : String) (first : Document) (later : List Document) :
    (createdObject getTime id first).overwriteAll (later.map (modifiedObject getTime id))
      "objectID" = some (.string id) := by
  refine Record.overwriteAll_getLastD ?_
  rw [List.getLastD_eq_getLast?, List.getLast?_map]
  cases later.getLast? <;> rfl

theorem merged_birthdayTimestamp (id : String) (first : Document) (later : List Document) :
    (createdObject getTime id first).overwriteAll (later.map (modifiedObject getTime id))
      "birthdayTimestamp" = some (getTime (later.getLastD first "birthday")) := by
  refine Record.overwriteAll_getLastD ?_
  rw [List.getLastD_eq_getLast?, List.getLastD_eq_getLast?, List.getLast?_map]
  cases later.getLast? <;> rfl

theorem merged_creationTimestamp (id : String) (first : Document) (later : List Document) :
    (createdObject getTime id first).overwriteAll (later.map (modifiedObject getTime id))
      "creationTimestamp" = some (((later.filterMap (· "creationTimestamp")).getLast?).getD
        (getTime (first "creationDate"))) := by
  rw [Record.overwriteAll_apply, List.filterMap_map]
  show ((later.filterMap (· "creationTimestamp")).getLast?).or
    (some (getTime (first "creationDate"))) = _
  cases (later.filterMap (· "creationTimestamp")).getLast? <;> rfl

theorem merged_of_not_derived {k : String} (hk : k ∉ derived) (id : String) (first : Document)
    (later : List Document) :
    (createdObject getTime id first).overwriteAll (later.map (modifiedObject getTime id)) k =
      first.overwriteAll later k :=
  Record.overwriteAll_map_apply (createdObject_of_not_derived hk id first)
    (modifiedObject_of_not_derived hk id)

theorem merged_eq_createdObject_iff {id : String} {first : Document} {later : List Document} :
    merged getTime id (first :: later) = some (createdObject getTime id (later.getLastD first)) ↔
      Kept getTime first later := by
  rw [merged, Option.some_inj]
  constructor
  · intro heq
    refine ⟨?_, ?_⟩
    · intro k hk
      have hat := congrFun heq k
      rw [merged_of_not_derived hk, createdObject_of_not_derived hk] at hat
      exact Record.overwriteAll_eq_getLastD_iff.mp hat
    · have hat := congrFun heq "creationTimestamp"
      rw [merged_creationTimestamp, createdObject_creationTimestamp] at hat
      exact Option.some.inj hat
  · intro hkept
    funext k
    by_cases hk : k ∈ derived
    · simp only [derived, List.mem_cons, List.not_mem_nil, or_false] at hk
      rcases hk with rfl | rfl | rfl
      · rw [merged_objectID, createdObject_objectID]
      · rw [merged_creationTimestamp, createdObject_creationTimestamp, hkept.creation]
      · rw [merged_birthdayTimestamp, createdObject_birthdayTimestamp]
    · rw [merged_of_not_derived hk, createdObject_of_not_derived hk]
      exact Record.overwriteAll_eq_getLastD_iff.mpr (hkept.fields k hk)

/-! ### The whole index -/

/-- The index that a full rebuild gives. -/
def rebuild (getTime : Option Value → Value) (posts : String → Option Document) : AlgoliaIndex :=
  fun id => (posts id).map (createdObject getTime id)

/-- **The index is the full rebuild exactly when no post has lost a field or moved its
creation date.** -/
theorem index_eq_rebuild_iff {s : Site} {ws : List (String × Change)}
    (h : (site getTime).run Site.empty ws = some s) :
    s.index = rebuild getTime s.posts ↔
      ∀ id first later, versions ws id = first :: later → Kept getTime first later := by
  have htracks := tracks_run h
  constructor
  · intro heq id first later hvs
    have hat := congrFun heq id
    rw [rebuild, (htracks id).1, (htracks id).2, hvs, List.getLast?_cons,
      ← List.getLastD_eq_getLast?] at hat
    exact merged_eq_createdObject_iff.mp hat
  · intro hkept
    funext id
    rw [rebuild, (htracks id).1, (htracks id).2]
    cases hvs : versions ws id with
    | nil => rfl
    | cons first later =>
      rw [List.getLast?_cons, ← List.getLastD_eq_getLast?]
      exact merged_eq_createdObject_iff.mpr (hkept id first later hvs)

/-- A post of one version, on the day it is created. -/
def ann : Document :=
  assign (assign (fun _ => none) "name" (.string "Ann")) "creationDate" (.string "2022-03-04")

theorem index_eq_rebuild_iff_example :
    let getTime := fun date =>
      if date = some (.string "2022-03-04") then .number 1646352000000 else .null
    ∃ s, (site getTime).run Site.empty
        [("p", .create ann), ("p", .update (assign ann "name" (.string "Beth")))] = some s ∧
      s.index = rebuild getTime s.posts := by
  intro getTime
  have hrun : ∃ s, (site getTime).run Site.empty
      [("p", .create ann), ("p", .update (assign ann "name" (.string "Beth")))] = some s :=
    ⟨_, rfl⟩
  obtain ⟨s, hrun⟩ := hrun
  refine ⟨s, hrun, (index_eq_rebuild_iff hrun).mpr ?_⟩
  intro id first later hvs
  have hid : "p" = id := by
    by_contra hne
    simp [versions, hne] at hvs
  subst hid
  obtain ⟨rfl, rfl⟩ := List.cons.inj hvs
  refine ⟨?_, rfl⟩
  intro k _ hsome hnone
  have hname : k ≠ "name" := by
    rintro rfl
    exact absurd hnone (by decide)
  have hsame : assign ann "name" (.string "Beth") k = ann k := Function.update_of_ne hname _ _
  obtain ⟨v, hv, hne⟩ := hsome
  rcases List.mem_pair.mp hv with rfl | rfl
  · exact hne (hsame.symm.trans hnone)
  · exact hne hnone

/-- An update that takes the location away leaves it in the index. -/
theorem index_keeps_removed_field :
    ¬ ∀ (getTime : Option Value → Value) (ws : List (String × Change)) (s : Site),
      (site getTime).run Site.empty ws = some s → s.index = rebuild getTime s.posts := by
  intro h
  have hindex := h (fun _ => .null)
    [("p", .create (assign ann "location" (.string "Durham"))), ("p", .update ann)] _ rfl
  have hat := congrArg (fun ix => (ix "p").bind fun record => record "location") hindex
  exact absurd hat (by decide)

end Subtle.Index
