import Subtle.Firestore.Value
import Subtle.Lib.Machine

/-!
# The search index and the triggers that keep it

The Algolia index holds at most one record for each `objectID`.  Three Cloud
Functions follow the writes on `Posts`: `onPostCreated` saves a whole record,
`onPostModified` merges into the record there is, `onPostDeleted` removes it.

`new Date(x).getTime()` is one fixed function `getTime` of a field that may be
missing.

* `handle_apply`: what the trigger of a change does to the record of its post.
* `site`: the posts and the index under the writes, each followed by its trigger.
-/

namespace Subtle.Index

open Subtle.Firestore Subtle.Lib

/-! ### Algolia -/

/-- The record saved under each `objectID`. -/
abbrev AlgoliaIndex := String → Option Document

/-- Replace the whole record of the object's `objectID`. -/
def AlgoliaIndex.saveObject (ix : AlgoliaIndex) (object : Document) : AlgoliaIndex :=
  match object "objectID" with
  | some (.string id) => Function.update ix id (some object)
  | _ => ix

/-- Overwrite the attributes that the objects have, in the records that exist. -/
def AlgoliaIndex.partialUpdateObjects (ix : AlgoliaIndex) (objects : List Document) :
    AlgoliaIndex :=
  objects.foldl (fun ix object =>
    match object "objectID" with
    | some (.string id) => Function.update ix id ((ix id).map (·.overwrite object))
    | _ => ix) ix

def AlgoliaIndex.deleteObject (ix : AlgoliaIndex) (id : String) : AlgoliaIndex :=
  Function.update ix id none

/-! ### The triggers -/

variable (getTime : Option Value → Value)

/-- The object that `onPostCreated` saves for the data of a post. -/
def createdObject (id : String) (post : Document) : Document :=
  let creationTimestamp := getTime (post "creationDate")
  let birthdayTimestamp := getTime (post "birthday")
  assign (assign (assign post "objectID" (.string id)) "creationTimestamp" creationTimestamp)
    "birthdayTimestamp" birthdayTimestamp

def onPostCreated (id : String) (post : Document) (adminIndex : AlgoliaIndex) : AlgoliaIndex :=
  adminIndex.saveObject (createdObject getTime id post)

def onPostDeleted (id : String) (adminIndex : AlgoliaIndex) : AlgoliaIndex :=
  adminIndex.deleteObject id

/-- The object that `onPostModified` merges. -/
def modifiedObject (id : String) (post : Document) : Document :=
  let birthdayTimestamp := getTime (post "birthday")
  assign (assign post "birthdayTimestamp" birthdayTimestamp) "objectID" (.string id)

def onPostModified (id : String) (post : Document) (adminIndex : AlgoliaIndex) : AlgoliaIndex :=
  adminIndex.partialUpdateObjects [modifiedObject getTime id post]

/-! ### Writes -/

/-- A write on one document of `Posts`; an update brings the data after it. -/
inductive Change where
  | create (post : Document)
  | update (post : Document)
  | delete

namespace Change

/-- The trigger of a change. -/
def handle (id : String) : Change → AlgoliaIndex → AlgoliaIndex
  | create post => onPostCreated getTime id post
  | update post => onPostModified getTime id post
  | delete => onPostDeleted id

/-- What the trigger of a change does to the record of its post. -/
def next (id : String) : Change → Option Document → Option Document
  | create post, _ => some (createdObject getTime id post)
  | update post, record => record.map (·.overwrite (modifiedObject getTime id post))
  | delete, _ => none

end Change

variable {getTime}

@[simp] theorem createdObject_objectID (id : String) (post : Document) :
    createdObject getTime id post "objectID" = some (.string id) := rfl

@[simp] theorem createdObject_creationTimestamp (id : String) (post : Document) :
    createdObject getTime id post "creationTimestamp" =
      some (getTime (post "creationDate")) := rfl

@[simp] theorem createdObject_birthdayTimestamp (id : String) (post : Document) :
    createdObject getTime id post "birthdayTimestamp" = some (getTime (post "birthday")) := rfl

@[simp] theorem modifiedObject_objectID (id : String) (post : Document) :
    modifiedObject getTime id post "objectID" = some (.string id) := rfl

/-- The attributes that a trigger computes. -/
def derived : List String := ["objectID", "creationTimestamp", "birthdayTimestamp"]

theorem createdObject_of_not_derived {k : String} (hk : k ∉ derived) (id : String)
    (post : Document) : createdObject getTime id post k = post k := by
  simp only [derived, List.mem_cons, List.not_mem_nil, or_false, not_or] at hk
  obtain ⟨h₁, h₂, h₃⟩ := hk
  simp [createdObject, assign, h₁, h₂, h₃]

theorem modifiedObject_of_not_derived {k : String} (hk : k ∉ derived) (id : String)
    (post : Document) : modifiedObject getTime id post k = post k := by
  simp only [derived, List.mem_cons, List.not_mem_nil, or_false, not_or] at hk
  obtain ⟨h₁, -, h₃⟩ := hk
  simp [modifiedObject, assign, h₁, h₃]

/-- **A trigger changes the record of its own post only.** -/
theorem handle_apply (id i : String) (change : Change) (ix : AlgoliaIndex) :
    change.handle getTime id ix i = if i = id then change.next getTime id (ix id) else ix i := by
  by_cases hi : i = id
  · subst hi
    rw [if_pos rfl]
    cases change with
    | create post =>
      show AlgoliaIndex.saveObject ix (createdObject getTime i post) i = _
      simp [AlgoliaIndex.saveObject, Change.next]
    | update post =>
      show AlgoliaIndex.partialUpdateObjects ix [modifiedObject getTime i post] i = _
      simp [AlgoliaIndex.partialUpdateObjects, Change.next]
    | delete => exact Function.update_self i none ix
  · rw [if_neg hi]
    cases change with
    | create post =>
      show AlgoliaIndex.saveObject ix (createdObject getTime id post) i = _
      simp [AlgoliaIndex.saveObject, hi]
    | update post =>
      show AlgoliaIndex.partialUpdateObjects ix [modifiedObject getTime id post] i = _
      simp [AlgoliaIndex.partialUpdateObjects, hi]
    | delete => exact Function.update_of_ne hi none ix

/-! ### Posts and index together -/

structure Site where
  posts : String → Option Document
  index : AlgoliaIndex

def Site.empty : Site := ⟨fun _ => none, fun _ => none⟩

/-- The data of a document after a change; a document is created when there is
none, and updated or deleted when there is one. -/
def Change.commit : Change → Option Document → Option (Option Document)
  | create post, none => some (some post)
  | update post, some _ => some (some post)
  | delete, some _ => some none
  | _, _ => none

/-- Each write on a post is followed by its trigger. -/
def site (getTime : Option Value → Value) : Machine Site (String × Change) where
  step s w := (w.2.commit (s.posts w.1)).map fun post =>
    ⟨Function.update s.posts w.1 post, w.2.handle getTime w.1 s.index⟩

end Subtle.Index
