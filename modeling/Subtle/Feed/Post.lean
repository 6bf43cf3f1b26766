import Subtle.Firestore.Value
import Subtle.Storage.Batch
import Mathlib.Data.Finset.Basic

/-!
# Posts and the form that edits them

A post is stored as a document.  `PostVM` shows one copy of a post and holds the
fields of its edit form, which start as the fields of the copy.

* `decode_encode`: a stored post is read back as it was written.
* `pictures_decode`: the pictures that a document lists.
* `editParams_apply`: **an edit writes the fields whose value in the form is not that
  of the post**.
-/

namespace Subtle.Feed

open Subtle.Firestore Subtle.Lib Subtle.Storage

/-- The `id` is that of the document and no field of it. -/
structure Post where
  id : Option String
  posterId : String
  name : String
  university : String
  location : String
  birthday : Int
  text : String
  likes : List String
  tags : List String
  taggedUserIds : List String
  pictures : List URL
  childCommentIds : List String
  creationDate : Int
  deriving DecidableEq

def Post.encode (post : Post) : Document := fun k =>
  List.lookup k
    [("posterId", .string post.posterId), ("name", .string post.name),
      ("university", .string post.university), ("location", .string post.location),
      ("birthday", .timestamp post.birthday), ("text", .string post.text),
      ("likes", .strings post.likes), ("tags", .strings post.tags),
      ("taggedUserIds", .strings post.taggedUserIds), ("pictures", .strings post.pictures),
      ("childCommentIds", .strings post.childCommentIds),
      ("creationDate", .timestamp post.creationDate)]

def Post.decode (id : String) (document : Document) : Option Post := do
  -- `@DocumentID` cannot be assigned over a field of that name
  guard (document "id" = none)
  let posterId ← (document "posterId").bind Value.asString
  let name ← (document "name").bind Value.asString
  let university ← (document "university").bind Value.asString
  let location ← (document "location").bind Value.asString
  let birthday ← (document "birthday").bind Value.asTimestamp
  let text ← (document "text").bind Value.asString
  let likes ← (document "likes").bind Value.asStrings
  let tags ← (document "tags").bind Value.asStrings
  let taggedUserIds ← (document "taggedUserIds").bind Value.asStrings
  -- every string is taken for a URL
  let pictures ← (document "pictures").bind Value.asStrings
  let childCommentIds ← (document "childCommentIds").bind Value.asStrings
  let creationDate ← (document "creationDate").bind Value.asTimestamp
  return { id := some id, posterId, name, university, location, birthday, text, likes, tags,
           taggedUserIds, pictures, childCommentIds, creationDate }

theorem decode_encode (id : String) (post : Post) :
    Post.decode id post.encode = some { post with id := some id } := by
  have hlikes : (post.encode "likes").bind Value.asStrings = some post.likes :=
    Value.asStrings_strings _
  have htags : (post.encode "tags").bind Value.asStrings = some post.tags :=
    Value.asStrings_strings _
  have htagged : (post.encode "taggedUserIds").bind Value.asStrings = some post.taggedUserIds :=
    Value.asStrings_strings _
  have hpictures : (post.encode "pictures").bind Value.asStrings = some post.pictures :=
    Value.asStrings_strings _
  have hcomments : (post.encode "childCommentIds").bind Value.asStrings =
    some post.childCommentIds := Value.asStrings_strings _
  unfold Post.decode
  rw [hlikes, htags, htagged, hpictures, hcomments]
  rfl

/-- The pictures that a document lists. -/
def pictures (document : Document) : List URL :=
  ((document "pictures").bind Value.asStrings).getD []

theorem pictures_of_strings {document : Document} {urls : List URL}
    (h : document "pictures" = some (.strings urls)) : pictures document = urls := by
  simp [pictures, h]

@[simp] theorem pictures_encode (post : Post) : pictures post.encode = post.pictures :=
  pictures_of_strings rfl

theorem pictures_decode {id : String} {document : Document} {post : Post}
    (h : Post.decode id document = some post) : post.pictures = pictures document := by
  unfold Post.decode at h
  iterate 10 obtain ⟨_, -, h⟩ := Option.bind_eq_some_iff.mp h
  obtain ⟨urls, hurls, h⟩ := Option.bind_eq_some_iff.mp h
  iterate 2 obtain ⟨_, -, h⟩ := Option.bind_eq_some_iff.mp h
  obtain rfl := Option.some.inj h
  simp [pictures, hurls]

theorem id_of_decode {id : String} {document : Document} {post : Post}
    (h : Post.decode id document = some post) : post.id = some id := by
  unfold Post.decode at h
  iterate 13 obtain ⟨_, -, h⟩ := Option.bind_eq_some_iff.mp h
  exact (Option.some.inj h) ▸ rfl

theorem posterId_of_decode {id : String} {document : Document} {post : Post}
    (h : Post.decode id document = some post) :
    (document "posterId").bind Value.asString = some post.posterId := by
  unfold Post.decode at h
  obtain ⟨_, -, h⟩ := Option.bind_eq_some_iff.mp h
  obtain ⟨posterId, hposter, h⟩ := Option.bind_eq_some_iff.mp h
  iterate 11 obtain ⟨_, -, h⟩ := Option.bind_eq_some_iff.mp h
  exact (Option.some.inj h) ▸ hposter

/-- The form of a new post. -/
structure PostForm where
  name : String
  date : Int
  university : String
  location : String
  text : String
  tags : List String
  deriving DecidableEq

/-- The post that `formCompletion` makes, with a fresh `id`. -/
def formCompletion (currentUser : Option String) (form : PostForm) (id : String)
    (creationDate : Int) : Option Post :=
  currentUser.map fun userId =>
    { id := some id, posterId := userId, name := form.name, university := form.university,
      location := form.location, birthday := form.date, text := form.text, likes := [],
      tags := form.tags, taggedUserIds := [], pictures := [], childCommentIds := [],
      creationDate }

/-- A picked image. -/
abbrev UIImage := String

/-- One copy of a post with its edit form, on the device of `currentUser`. -/
structure PostVM where
  currentUser : Option String
  post : Post
  imagesToDelete : List URL
  editName : String
  editDate : Int
  editUniversity : String
  editLocation : String
  editText : String
  editTag : List String
  editImages : List URL
  additionalImages : List UIImage
  selected : Finset URL
  deriving DecidableEq

namespace PostVM

def init (currentUser : Option String) (post : Post) : PostVM where
  currentUser := currentUser
  post := post
  imagesToDelete := []
  editName := post.name
  editDate := post.birthday
  editUniversity := post.university
  editLocation := post.location
  editText := post.text
  editTag := post.tags
  editImages := post.pictures
  additionalImages := []
  selected := ∅

/-- `PostView` shows the edit button. -/
def showsEdit (vm : PostVM) : Bool := vm.currentUser == some vm.post.posterId

/-- The text fields of the edit form, filled in. -/
def fill (vm : PostVM) (form : PostForm) : PostVM :=
  { vm with
    editName := form.name, editDate := form.date, editUniversity := form.university,
    editLocation := form.location, editText := form.text, editTag := form.tags }

/-- An image of the edit form is tapped. -/
def toggle (vm : PostVM) (url : URL) : PostVM :=
  { vm with
    selected := if url ∈ vm.selected then vm.selected.erase url else insert url vm.selected }

/-- `deleteImages`, where the two sets are enumerated as `imagesToRetain` and
`deleted`. -/
def deleteImages (vm : PostVM) (imagesToRetain deleted : List URL) : PostVM :=
  { vm with
    imagesToDelete := vm.imagesToDelete ++ deleted
    selected := ∅
    editImages := imagesToRetain }

/-- The order in which a set is enumerated is not fixed. -/
def Enumerates (urls : List URL) (set : Finset URL) : Prop := urls.Nodup ∧ urls.toFinset = set

instance (urls : List URL) (set : Finset URL) : Decidable (Enumerates urls set) :=
  inferInstanceAs (Decidable (_ ∧ _))

theorem mem_of_enumerates {urls : List URL} {set : Finset URL} (h : Enumerates urls set)
    {url : URL} : url ∈ urls ↔ url ∈ set := by
  rw [← h.2, List.mem_toFinset]

/-- The changed fields, without the pictures. -/
def editParams (vm : PostVM) : Document :=
  let editParams : Document := fun _ => none
  let editParams := if vm.post.name ≠ vm.editName then
    assign editParams "name" (.string vm.editName) else editParams
  let editParams := if vm.post.birthday ≠ vm.editDate then
    assign editParams "birthday" (.timestamp vm.editDate) else editParams
  let editParams := if vm.post.university ≠ vm.editUniversity then
    assign editParams "university" (.string vm.editUniversity) else editParams
  let editParams := if vm.post.location ≠ vm.editLocation then
    assign editParams "location" (.string vm.editLocation) else editParams
  let editParams := if vm.post.text ≠ vm.editText then
    assign editParams "text" (.string vm.editText) else editParams
  let editParams := if vm.post.tags ≠ vm.editTag then
    assign editParams "tags" (.strings vm.editTag) else editParams
  editParams

/-- The data of an update that lists `newImages`. -/
def withPictures (editParams : Document) (newImages : List URL) : Document :=
  assign editParams "pictures" (.strings newImages)

@[simp] theorem pictures_withPictures (editParams : Document) (newImages : List URL) :
    pictures (withPictures editParams newImages) = newImages :=
  pictures_of_strings (assign_self _ _ _)

theorem withPictures_of_ne {k : String} (hk : k ≠ "pictures") (editParams : Document)
    (newImages : List URL) : withPictures editParams newImages k = editParams k :=
  assign_of_ne hk _ _

/-- The fields that the edit form writes. -/
def editable : List String :=
  ["name", "birthday", "university", "location", "text", "tags", "pictures"]

theorem ite_assign_self (p : Prop) [Decidable p] (field : String) (v : Value) (d : Document) :
    (if p then assign d field v else d) field = if p then some v else d field := by
  split
  · exact assign_self d field v
  · rfl

theorem ite_assign_of_ne {k field : String} (hne : k ≠ field) (p : Prop) [Decidable p] (v : Value)
    (d : Document) : (if p then assign d field v else d) k = d k := by
  split
  · exact assign_of_ne hne d v
  · rfl

theorem editParams_of_not_editable {k : String} (hk : k ∉ editable) (vm : PostVM) :
    vm.editParams k = none := by
  simp only [editable, List.mem_cons, List.not_mem_nil, or_false, not_or] at hk
  obtain ⟨h₁, h₂, h₃, h₄, h₅, h₆, -⟩ := hk
  simp only [editParams]
  rw [ite_assign_of_ne h₆, ite_assign_of_ne h₅, ite_assign_of_ne h₄, ite_assign_of_ne h₃,
    ite_assign_of_ne h₂, ite_assign_of_ne h₁]

/-- What the edit form says of the fields other than the pictures. -/
def formValues (vm : PostVM) : Document := fun k =>
  List.lookup k
    [("name", .string vm.editName), ("birthday", .timestamp vm.editDate),
      ("university", .string vm.editUniversity), ("location", .string vm.editLocation),
      ("text", .string vm.editText), ("tags", .strings vm.editTag)]

theorem strings_injective : Function.Injective Value.strings := by
  intro ss ts h
  have hread := congrArg Value.asStrings h
  simpa using hread

/-- A changed value of one field. -/
theorem ite_ne_eq {α : Type} [DecidableEq α] {f : α → Value} (hf : Function.Injective f) (a b : α) :
    (if a ≠ b then some (f b) else none) =
      if some (f b) = some (f a) then none else some (f b) := by
  by_cases h : a = b
  · subst h
    rw [if_neg (not_not.mpr rfl), if_pos rfl]
  · rw [if_pos h, if_neg fun heq => h (hf (Option.some.inj heq)).symm]

/-- **The changed fields are those whose value in the form is not that of the post.** -/
theorem editParams_apply (vm : PostVM) (k : String) :
    vm.editParams k = if vm.formValues k = vm.post.encode k then none else vm.formValues k := by
  have hstring : Function.Injective Value.string := fun _ _ h => Value.string.inj h
  have htimestamp : Function.Injective Value.timestamp := fun _ _ h => Value.timestamp.inj h
  simp only [editParams]
  by_cases hk : k ∈ editable
  · simp only [editable, List.mem_cons, List.not_mem_nil, or_false] at hk
    rcases hk with rfl | rfl | rfl | rfl | rfl | rfl | rfl
    · simp (disch := decide) only [ite_assign_of_ne, ite_assign_self]
      exact ite_ne_eq hstring _ _
    · simp (disch := decide) only [ite_assign_of_ne, ite_assign_self]
      exact ite_ne_eq htimestamp _ _
    · simp (disch := decide) only [ite_assign_of_ne, ite_assign_self]
      exact ite_ne_eq hstring _ _
    · simp (disch := decide) only [ite_assign_of_ne, ite_assign_self]
      exact ite_ne_eq hstring _ _
    · simp (disch := decide) only [ite_assign_of_ne, ite_assign_self]
      exact ite_ne_eq hstring _ _
    · simp (disch := decide) only [ite_assign_of_ne, ite_assign_self]
      exact ite_ne_eq strings_injective _ _
    · simp (disch := decide) only [ite_assign_of_ne]
      exact (ite_self _).symm
  · have hnone : vm.formValues k = none := by
      simp only [editable, List.mem_cons, List.not_mem_nil, or_false, not_or] at hk
      obtain ⟨h₁, h₂, h₃, h₄, h₅, h₆, -⟩ := hk
      simp only [formValues, List.lookup_cons, List.lookup_nil, beq_false_of_ne h₁,
        beq_false_of_ne h₂, beq_false_of_ne h₃, beq_false_of_ne h₄, beq_false_of_ne h₅,
        beq_false_of_ne h₆]
    rw [← editParams, editParams_of_not_editable hk, hnone, ite_self]

theorem withPictures_of_not_editable {k : String} (hk : k ∉ editable) {params : Document}
    (hparams : params k = none) (newImages : List URL) :
    withPictures params newImages k = none := by
  have hne : k ≠ "pictures" := by
    intro heq
    exact hk (by simp [heq, editable])
  exact (withPictures_of_ne hne _ _).trans hparams

end PostVM

end Subtle.Feed
