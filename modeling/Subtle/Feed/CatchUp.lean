import Subtle.Feed.EditForm

/-!
# The shown post catches up with the server

A like, an unlike and a save each write the post, read it once the write is answered, and
show what was read.  The reads of several of them may be delivered in any order.

* `commit_decodes`: no write of a view model makes the post unreadable.
* `Chasing`: a read is outstanding, or the last response, if any, is the stored post.
* `caught_up`: **a view model that is the only writer shows the stored post whenever it is
  at rest, if no response is overtaken by one with another post**.
-/

namespace Subtle.Feed

open Subtle.Firestore Subtle.Lib Subtle.Storage

/-! ### Writes keep the post readable -/

def postFields : List String :=
  ["posterId", "name", "university", "location", "birthday", "text", "likes", "tags",
    "taggedUserIds", "pictures", "childCommentIds", "creationDate"]

/-- The value has the type of the field.  A field `id` is never read. -/
def Readable (field : String) (value : Value) : Prop :=
  if field = "id" then False
  else if field ∈ ["birthday", "creationDate"] then value.asTimestamp ≠ none
  else if field ∈ ["likes", "tags", "taggedUserIds", "pictures", "childCommentIds"] then
    value.asStrings ≠ none
  else value.asString ≠ none

/-- A field that can be read, by its type. -/
theorem exists_readable_iff {document : Document} {k : String} {α : Type} {read : Value → Option α}
    (hread : ∀ value, Readable k value ↔ read value ≠ none) :
    (∃ value, document k = some value ∧ Readable k value) ↔ (document k).bind read ≠ none := by
  cases hk : document k with
  | none => simp
  | some value => simp [hread]

theorem guard_ne_none_iff {p : Prop} [Decidable p] : (guard p : Option Unit) ≠ none ↔ p := by
  rw [guard]
  split
  · next hp => exact iff_of_true (Option.some_ne_none _) hp
  · next hp => exact iff_of_false (fun h => h rfl) hp

/-- **A document is a post when all fields are there**, each of its type, and none `id`. -/
theorem decode_ne_none_iff {id : String} {document : Document} :
    Post.decode id document ≠ none ↔ document "id" = none ∧
      ∀ k ∈ postFields, ∃ value, document k = some value ∧ Readable k value := by
  have hstring : ∀ k ∈ ["posterId", "name", "university", "location", "text"], ∀ value,
      Readable k value ↔ value.asString ≠ none := by
    intro k hk value
    simp only [List.mem_cons, List.not_mem_nil, or_false] at hk
    rcases hk with rfl | rfl | rfl | rfl | rfl <;> simp [Readable]
  have htimestamp : ∀ k ∈ ["birthday", "creationDate"], ∀ value,
      Readable k value ↔ value.asTimestamp ≠ none := by
    intro k hk value
    simp only [List.mem_cons, List.not_mem_nil, or_false] at hk
    rcases hk with rfl | rfl <;> simp [Readable]
  have hstrings : ∀ k ∈ ["likes", "tags", "taggedUserIds", "pictures", "childCommentIds"], ∀ value,
      Readable k value ↔ value.asStrings ≠ none := by
    intro k hk value
    simp only [List.mem_cons, List.not_mem_nil, or_false] at hk
    rcases hk with rfl | rfl | rfl | rfl | rfl <;> simp [Readable]
  simp only [postFields, List.forall_mem_cons, List.not_mem_nil, false_implies, implies_true,
    and_true]
  rw [exists_readable_iff (hstring "posterId" (by decide)),
    exists_readable_iff (hstring "name" (by decide)),
    exists_readable_iff (hstring "university" (by decide)),
    exists_readable_iff (hstring "location" (by decide)),
    exists_readable_iff (htimestamp "birthday" (by decide)),
    exists_readable_iff (hstring "text" (by decide)),
    exists_readable_iff (hstrings "likes" (by decide)),
    exists_readable_iff (hstrings "tags" (by decide)),
    exists_readable_iff (hstrings "taggedUserIds" (by decide)),
    exists_readable_iff (hstrings "pictures" (by decide)),
    exists_readable_iff (hstrings "childCommentIds" (by decide)),
    exists_readable_iff (htimestamp "creationDate" (by decide))]
  have hbind : ∀ {α β : Type} {x : Option α} {f : α → Option β} {p : Prop},
      (∀ a, f a ≠ none ↔ p) → (x.bind f ≠ none ↔ x ≠ none ∧ p) := by
    intro α β x f p hf
    cases x with
    | none => simp
    | some a => simp [← hf a]
  unfold Post.decode
  refine (hbind fun _ => ?_).trans (and_congr_left' guard_ne_none_iff)
  iterate 11 refine hbind fun _ => ?_
  exact (hbind fun _ => iff_of_true (Option.some_ne_none _) trivial).trans (and_iff_left trivial)

/-- Every field that is written is given a value of its type. -/
def Typed (data : Document) : Prop := ∀ k value, data k = some value → Readable k value

def Change.Typed : Change → Prop
  | edit data => Feed.Typed data
  | like _ | unlike _ => True

theorem typed_editParams (vm : PostVM) : Typed vm.editParams := by
  intro k value hk
  rw [PostVM.editParams_apply] at hk
  obtain ⟨-, hk⟩ := Option.ite_none_left_eq_some.mp hk
  by_cases hfield : k ∈ ["name", "birthday", "university", "location", "text", "tags"]
  · simp only [List.mem_cons, List.not_mem_nil, or_false] at hfield
    rcases hfield with rfl | rfl | rfl | rfl | rfl | rfl <;> obtain rfl := Option.some.inj hk <;>
      simp [Readable, Value.asString, Value.asTimestamp]
  · simp only [List.mem_cons, List.not_mem_nil, or_false, not_or] at hfield
    obtain ⟨h₁, h₂, h₃, h₄, h₅, h₆⟩ := hfield
    simp [PostVM.formValues, List.lookup_cons, beq_false_of_ne h₁, beq_false_of_ne h₂,
      beq_false_of_ne h₃, beq_false_of_ne h₄, beq_false_of_ne h₅, beq_false_of_ne h₆] at hk

theorem typed_withPictures {params : Document} (h : Typed params) (urls : List URL) :
    Typed (PostVM.withPictures params urls) := by
  intro k value hk
  by_cases hpictures : k = "pictures"
  · subst hpictures
    obtain rfl := Option.some.inj ((assign_self params "pictures" _).symm.trans hk)
    simp [Readable]
  · rw [PostVM.withPictures_of_ne hpictures] at hk
    exact h k value hk

/-- A write to the likes leaves an array of strings. -/
theorem readable_likes {document : Document} {f : Option Value → Value → Value} {user : String}
    (hf : ∀ ss, ∃ ss', f (some (.strings ss)) (.string user) = .strings ss')
    (h : ∃ value, document "likes" = some value ∧ Readable "likes" value) :
    Readable "likes" (f (document "likes") (.string user)) := by
  obtain ⟨value, hlikes, hvalue⟩ := h
  have hread : value.asStrings ≠ none := by simpa [Readable] using hvalue
  obtain ⟨ss, hss⟩ := Option.ne_none_iff_exists'.mp hread
  obtain ⟨ss', hss'⟩ := hf ss
  rw [hlikes, Value.asStrings_eq_some hss, hss']
  simp [Readable]

/-- No write sets a field `id`. -/
theorem commit_id {document : Document} {change : Change} (hid : document "id" = none)
    (hchange : change.Typed) : change.commit document "id" = none := by
  cases change with
  | edit data =>
    cases hdata : data "id" with
    | none => exact (Record.overwrite_of_none hdata _).trans hid
    | some value => exact absurd (hchange "id" value hdata) (by simp [Readable])
  | like user => exact (assign_of_ne (by decide) _ _).trans hid
  | unlike user => exact (assign_of_ne (by decide) _ _).trans hid

/-- **A write leaves the post readable.** -/
theorem commit_decodes {id : String} {document : Document} {change : Change}
    (hdecode : Post.decode id document ≠ none) (hchange : change.Typed) :
    Post.decode id (change.commit document) ≠ none := by
  rw [decode_ne_none_iff] at hdecode ⊢
  obtain ⟨hid, hfields⟩ := hdecode
  refine ⟨commit_id hid hchange, fun k hk => ?_⟩
  cases change with
  | edit data =>
    cases hdata : data k with
    | none =>
      rw [Change.commit, Record.overwrite_of_none hdata]
      exact hfields k hk
    | some value => exact ⟨value, Record.overwrite_of_some hdata _, hchange k value hdata⟩
  | like user =>
    by_cases hlikes : k = "likes"
    · subst hlikes
      exact ⟨_, assign_self _ _ _, readable_likes (f := Value.arrayUnion)
        (fun ss => ⟨_, Value.arrayUnion_strings ss user⟩) (hfields _ hk)⟩
    · rw [Change.commit, assign_of_ne hlikes]
      exact hfields k hk
  | unlike user =>
    by_cases hlikes : k = "likes"
    · subst hlikes
      exact ⟨_, assign_self _ _ _, readable_likes (f := Value.arrayRemove)
        (fun ss => ⟨_, Value.arrayRemove_strings ss user⟩) (hfields _ hk)⟩
    · rw [Change.commit, assign_of_ne hlikes]
      exact hfields k hk

/-! ### The operations of one view model -/

/-- The uploads are for a save of the view model. -/
def After.SavedBy (i : Nat) : After → Prop
  | modifyPost j params _ => j = i ∧ Typed params
  | addPost _ _ => False

namespace Op

/-- An operation of the view model `i` on its post that reads nothing. -/
def Writes (i : Nat) (id : String) : Op → Prop
  | upload _ _ _ after => after.SavedBy i
  | updateData j k change => j = i ∧ k = id ∧ change.Typed
  | deleteImage _ _ => True
  | setData _ _ | getDocument _ _ | response _ _ | deleteDocument _ => False

/-- An operation of the view model `i` on its post. -/
def Of (i : Nat) (id : String) : Op → Prop
  | getDocument j k => j = i ∧ k = id
  | response j post => j = i ∧ post.id = some id
  | op => op.Writes i id

def isRead : Op → Bool
  | getDocument _ _ => true
  | _ => false

def read? : Op → Option Post
  | response _ post => some post
  | _ => none

variable {i : Nat} {id : String} {op : Op}

theorem Writes.of (h : op.Writes i id) : op.Of i id := by
  cases op with
  | getDocument | response => exact h.elim
  | upload | setData | updateData | deleteImage | deleteDocument => exact h

theorem Writes.isRead (h : op.Writes i id) : op.isRead = false := by
  cases op with
  | getDocument => exact h.elim
  | _ => rfl

theorem Writes.read? (h : op.Writes i id) : op.read? = none := by
  cases op with
  | response => exact h.elim
  | _ => rfl

end Op

/-- The posts that have been read and are on their way, in the order in which they were
read. -/
def responses (ops : List Op) : List Post := ops.filterMap Op.read?

theorem responses_append (ops ops' : List Op) :
    responses (ops ++ ops') = responses ops ++ responses ops' := List.filterMap_append

section Writes

variable {s : App} {i : Nat} {id : String} {vm : PostVM} {op : Op}

theorem responses_of_writes {ops : List Op} (h : ∀ op ∈ ops, op.Writes i id) :
    responses ops = [] := List.filterMap_eq_nil_iff.mpr fun op hop => (h op hop).read?

theorem writes_modifyPost (hid : vm.post.id = some id) {data : Document} (hdata : Typed data)
    (h : op ∈ modifyPost i vm data) : op.Writes i id := by
  unfold modifyPost at h
  rw [hid] at h
  split at h
  · next heq =>
    obtain rfl := Option.some.inj heq
    split at h
    · obtain rfl := List.mem_singleton.mp h
      exact ⟨rfl, rfl, hdata⟩
    · exact absurd h List.not_mem_nil
  · exact absurd h List.not_mem_nil

theorem writes_addImageHelper (hvm : s.vms[i]? = some vm) (hid : vm.post.id = some id)
    {after : After} (hafter : after.SavedBy i) {urls : List URL} {images : List UIImage}
    (h : op ∈ s.addImageHelper urls after images) : op.Writes i id := by
  cases images with
  | cons image rest =>
    obtain rfl := List.mem_singleton.mp h
    exact hafter
  | nil =>
    cases after with
    | addPost => exact hafter.elim
    | modifyPost j params newImages =>
      obtain ⟨rfl, hparams⟩ := hafter
      simp only [App.addImageHelper, App.uploaded, hvm] at h
      exact writes_modifyPost hid (typed_withPictures hparams _) h

theorem writes_likePost (hid : vm.post.id = some id) (h : op ∈ vm.likePost i) :
    op.Writes i id := by
  unfold PostVM.likePost likePost at h
  rw [hid] at h
  split at h
  · split at h
    · obtain rfl := List.mem_singleton.mp h
      exact ⟨rfl, rfl, trivial⟩
    · exact absurd h List.not_mem_nil
  · exact absurd h List.not_mem_nil

theorem writes_unlikePost (hid : vm.post.id = some id) (h : op ∈ vm.unlikePost i) :
    op.Writes i id := by
  unfold PostVM.unlikePost unlikePost at h
  rw [hid] at h
  split at h
  · split at h
    · obtain rfl := List.mem_singleton.mp h
      exact ⟨rfl, rfl, trivial⟩
    · exact absurd h List.not_mem_nil
  · exact absurd h List.not_mem_nil

theorem writes_editPostAndImages (hvm : s.vms[i]? = some vm) (hid : vm.post.id = some id)
    (h : op ∈ editPostAndImages s i vm) : op.Writes i id := by
  have hparams := typed_editParams vm
  unfold editPostAndImages at h
  split at h
  · unfold App.addImages at h
    split at h
    · refine writes_addImageHelper hvm hid ?_ h
      exact ⟨rfl, hparams⟩
    · exact absurd h List.not_mem_nil
  · rcases List.mem_append.mp h with h | h
    · exact writes_modifyPost hid (typed_withPictures hparams _) h
    · obtain ⟨index, rfl⟩ := mem_startDeletion h
      trivial

end Writes

/-! ### Catching up -/

/-- A call of the view model `i`, or an answer that is no error. -/
def Alone (i : Nat) : Event Call Reply → Prop
  | .call (.fill j _) | .call (.addImage j _) | .call (.toggle j _) | .call (.deleteImages j _ _)
  | .call (.save j) | .call (.like j) | .call (.unlike j) => j = i
  | .call (.submit ..) | .call (.openPost ..) | .call (.deletePost _) => False
  | .answer _ r => r ≠ .error

instance (i : Nat) (e : Event Call Reply) : Decidable (Alone i e) := by
  unfold Alone
  split <;> infer_instance

/-- What was read earlier and is still on its way is the same post. -/
def InReadOrder (c : Config App Op) : Event Call Reply → Prop
  | .call _ => True
  | .answer k _ => ∀ post ∈ (c.pending[k]?).bind Op.read?,
      ∀ earlier ∈ responses (c.pending.take k), earlier = post

instance (c : Config App Op) (e : Event Call Reply) : Decidable (InReadOrder c e) :=
  match e with
  | .call _ => isTrue trivial
  | .answer _ _ => inferInstanceAs (Decidable (∀ post ∈ (_ : Option Post), _))

/-- **The view model is chasing the stored post**: a read is outstanding, or what was read
last, if it is still on its way, or else what is shown, is the stored post. -/
structure Chasing (i : Nat) (id : String) (s : App) (ops : List Op) : Prop where
  of : ∀ op ∈ ops, op.Of i id
  chases : ∃ vm stored, s.vms[i]? = some vm ∧ vm.post.id = some id ∧
    (s.posts id).bind (Post.decode id) = some stored ∧
    ((∃ op ∈ ops, op.isRead) ∨ (responses ops).getLastD vm.post = stored)

/-- Of equal elements and what comes after them the last remains when one is taken out. -/
theorem getLastD_append_cons {α : Type*} {earlier later : List α} {a b : α}
    (h : ∀ x ∈ earlier, x = a) :
    (earlier ++ later).getLastD a = (earlier ++ a :: later).getLastD b := by
  rcases later.eq_nil_or_concat' with rfl | ⟨init, z, rfl⟩
  · rw [List.append_nil, List.getLastD_concat]
    rcases earlier.eq_nil_or_concat' with rfl | ⟨init, x, rfl⟩
    · rfl
    · rw [List.getLastD_concat]
      exact h x (List.mem_append_right _ List.mem_cons_self)
  · rw [← List.cons_append, ← List.append_assoc, ← List.append_assoc, List.getLastD_concat,
      List.getLastD_concat]

namespace Chasing

variable {i : Nat} {id : String} {s s' : App} {ops new pre tail : List Op} {op : Op}

/-- New writes of the view model, while the post and what is shown stay. -/
theorem frame (h : Chasing i id s ops)
    (hvm : ∀ vm, s.vms[i]? = some vm → ∃ vm', s'.vms[i]? = some vm' ∧ vm'.post = vm.post)
    (hposts : s'.posts = s.posts) (hnew : ∀ op ∈ new, op.Writes i id) :
    Chasing i id s' (ops ++ new) := by
  obtain ⟨vm, stored, hshown, hid, hstored, hchase⟩ := h.chases
  obtain ⟨vm', hshown', hpost⟩ := hvm vm hshown
  refine ⟨?_, vm', stored, hshown', hpost ▸ hid, hposts ▸ hstored, ?_⟩
  · intro op hop
    exact (List.mem_append.mp hop).elim (h.of op) fun hop => (hnew op hop).of
  · rw [responses_append, responses_of_writes hnew, List.append_nil, hpost]
    exact hchase.imp_left fun ⟨op, hop, hread⟩ => ⟨op, List.mem_append_left _ hop, hread⟩

/-- A write is answered. -/
theorem erase (h : Chasing i id s (pre ++ op :: tail)) (hop : op.Writes i id) :
    Chasing i id s (pre ++ tail) := by
  obtain ⟨vm, stored, hshown, hid, hstored, hchase⟩ := h.chases
  refine ⟨fun op' hop' => h.of op' (Service.mem_pending_iff.mpr (Or.inr hop')), vm, stored, hshown,
    hid, hstored, ?_⟩
  rcases hchase with ⟨op', hop', hread⟩ | hlast
  · rcases Service.mem_pending_iff.mp hop' with rfl | hop'
    · exact absurd (hop.isRead.symm.trans hread) Bool.false_ne_true
    · exact Or.inl ⟨op', hop', hread⟩
  · have hskip : responses (pre ++ op :: tail) = responses (pre ++ tail) := by
      rw [responses_append, responses_append]
      exact congrArg _ (List.filterMap_cons_none hop.read?)
    exact Or.inr (hskip ▸ hlast)

/-- A write is committed, and its post is to be read. -/
theorem committed (h : Chasing i id s ops) {change : Change} (hchange : change.Typed)
    {document : Document} (hdoc : s.posts id = some document)
    (hvms : s'.vms = s.vms)
    (hposts : s'.posts = Function.update s.posts id (some (change.commit document))) :
    Chasing i id s' (ops ++ [.getDocument i id]) := by
  obtain ⟨vm, stored, hshown, hid, hstored, -⟩ := h.chases
  rw [hdoc, Option.bind_some] at hstored
  have hdecode : Post.decode id (change.commit document) ≠ none :=
    commit_decodes (hstored ▸ Option.some_ne_none stored) hchange
  obtain ⟨stored', hstored'⟩ := Option.ne_none_iff_exists'.mp hdecode
  refine ⟨?_, vm, stored', hvms ▸ hshown, hid, ?_, Or.inl ⟨.getDocument i id, ?_, rfl⟩⟩
  · intro op hop
    rcases List.mem_append.mp hop with hop | hop
    · exact h.of op hop
    · obtain rfl := List.mem_singleton.mp hop
      exact ⟨rfl, rfl⟩
  · rw [hposts, Function.update_self, Option.bind_some, hstored']
  · exact List.mem_append_right _ List.mem_cons_self

/-- The post is read. -/
theorem read (h : Chasing i id s (pre ++ .getDocument i id :: tail)) :
    Chasing i id s (pre ++ tail ++
      ((s.posts id).bind (Post.decode id)).elim [] fun post => [.response i post]) := by
  obtain ⟨vm, stored, hshown, hid, hstored, -⟩ := h.chases
  obtain ⟨document, -, hdecode⟩ := Option.bind_eq_some_iff.mp hstored
  rw [hstored]
  refine ⟨?_, vm, stored, hshown, hid, hstored, Or.inr ?_⟩
  · intro op hop
    rcases List.mem_append.mp hop with hop | hop
    · exact h.of op (Service.mem_pending_iff.mpr (Or.inr hop))
    · obtain rfl := List.mem_singleton.mp hop
      exact ⟨rfl, id_of_decode hdecode⟩
  · rw [responses_append]
    exact List.getLastD_concat

/-- **A response that has not been overtaken by another post is shown.** -/
theorem delivered (h : Chasing i id s (pre ++ .response i post :: tail))
    (horder : ∀ earlier ∈ responses pre, earlier = post) :
    Chasing i id { s with vms := s.vms.modify i fun vm => { vm with post } } (pre ++ tail) := by
  obtain ⟨vm, stored, hshown, -, hstored, hchase⟩ := h.chases
  have hid : post.id = some id := (h.of (.response i post) (by simp)).2
  refine ⟨fun op hop => h.of op (Service.mem_pending_iff.mpr (Or.inr hop)), { vm with post },
    stored, ?_, hid, hstored, ?_⟩
  · simp [hshown]
  · rcases hchase with ⟨op, hop, hread⟩ | hlast
    · rcases Service.mem_pending_iff.mp hop with rfl | hop
      · exact absurd hread Bool.false_ne_true
      · exact Or.inl ⟨op, hop, hread⟩
    · right
      rw [← hlast, responses_append, responses_append]
      exact getLastD_append_cons horder

/-- The form of the view model is edited. -/
theorem editForm (h : Chasing i id s ops) {f : PostVM → Option PostVM}
    (hf : ∀ vm vm', f vm = some vm' → vm'.post = vm.post)
    (hcall : s.editForm i f = some (s', new)) : Chasing i id s' (ops ++ new) := by
  obtain ⟨vm, vm', hvm, hedit, rfl, rfl⟩ := editForm_eq_some hcall
  refine h.frame ?_ rfl (List.forall_mem_nil _)
  intro w hw
  obtain rfl := Option.some.inj (hvm.symm.trans hw)
  have hi := (List.getElem?_eq_some_iff.mp hvm).1
  exact ⟨vm', List.getElem?_set_self hi, hf vm vm' hedit⟩

/-- **A call keeps the chase.** -/
theorem call (h : Chasing i id s ops) {x : Call} (halone : Alone i (.call x))
    (hcall : s.call x = some (s', new)) : Chasing i id s' (ops ++ new) := by
  have hwrites : ∀ {j : Nat} {f : PostVM → List Op},
      (∀ vm, s.vms[j]? = some vm → vm.post.id = some id → ∀ op ∈ f vm, op.Writes i id) → j = i →
      ((s.vms[j]?).map fun vm => (s, f vm)) = some (s', new) → Chasing i id s' (ops ++ new) := by
    intro j f hf hj heq
    subst hj
    obtain ⟨vm, hvm, heq⟩ := Option.map_eq_some_iff.mp heq
    obtain ⟨rfl, rfl⟩ := Prod.mk.inj heq
    obtain ⟨w, -, hw, hid, -⟩ := h.chases
    obtain rfl := Option.some.inj (hvm.symm.trans hw)
    exact h.frame (fun w hw => ⟨w, hw, rfl⟩) rfl (hf vm hvm hid)
  have hedited : ∀ (action : EditAction) (vm vm' : PostVM), vm.edit action = some vm' →
      vm'.post = vm.post := fun action vm vm' hedit => (edit_frame hedit).1
  cases x with
  | fill j form =>
    obtain rfl := halone
    exact h.editForm (hedited (.fill form)) hcall
  | addImage j image =>
    obtain rfl := halone
    exact h.editForm (hedited (.addImage image)) hcall
  | toggle j url =>
    obtain rfl := halone
    exact h.editForm (hedited (.toggle url)) hcall
  | deleteImages j imagesToRetain deleted =>
    obtain rfl := halone
    exact h.editForm (hedited (.deleteImages imagesToRetain deleted)) hcall
  | save j =>
    obtain rfl := halone
    obtain ⟨vm, hvm, hcall⟩ := Option.bind_eq_some_iff.mp hcall
    obtain ⟨-, heq⟩ := Option.ite_none_right_eq_some.mp hcall
    obtain ⟨rfl, rfl⟩ := Prod.mk.inj (Option.some.inj heq)
    obtain ⟨w, -, hw, hid, -⟩ := h.chases
    obtain rfl := Option.some.inj (hvm.symm.trans hw)
    exact h.frame (fun w hw => ⟨w, hw, rfl⟩) rfl fun op hop => writes_editPostAndImages hvm hid hop
  | like j =>
    exact hwrites (fun vm _ hid op hop => writes_likePost hid (halone ▸ hop)) halone hcall
  | unlike j =>
    exact hwrites (fun vm _ hid op hop => writes_unlikePost hid (halone ▸ hop)) halone hcall
  | submit | openPost | deletePost => exact halone.elim

/-- **An answer that is no error keeps the chase**, if no response is overtaken. -/
theorem answer (h : Chasing i id s (pre ++ op :: tail)) {r : Reply} (hr : r ≠ .error)
    (horder : InReadOrder ⟨s, pre ++ op :: tail⟩ (.answer pre.length r))
    (hanswer : s.answer op r = some (s', new)) : Chasing i id s' (pre ++ tail ++ new) := by
  have hop : op.Of i id := h.of op (by simp)
  cases op with
  | upload image rest urls after =>
    cases answered_of_answer hanswer with
    | failed => exact absurd rfl hr
    | uploaded _ _ _ _ url hfresh =>
      obtain ⟨vm, -, hvm, hid, -⟩ := h.chases
      exact (h.erase hop).frame (fun w hw => ⟨w, hw, rfl⟩) rfl
        fun op hmem => writes_addImageHelper hvm hid hop hmem
  | updateData j k change =>
    obtain ⟨rfl, rfl, hchange⟩ := hop
    cases answered_of_answer hanswer with
    | failed => exact absurd rfl hr
    | updated _ _ _ document hdoc =>
      exact (h.erase ⟨rfl, rfl, hchange⟩).committed hchange hdoc rfl rfl
  | getDocument j k =>
    obtain ⟨rfl, rfl⟩ := hop
    cases r with
    | ok =>
      obtain ⟨rfl, rfl⟩ := Prod.mk.inj (Option.some.inj hanswer)
      exact h.read
    | error => exact absurd rfl hr
    | uploaded url => exact absurd hanswer (by simp [App.answer])
  | response j post =>
    obtain ⟨rfl, -⟩ := hop
    cases answered_of_answer hanswer with
    | failed => exact absurd rfl hr
    | delivered =>
      rw [List.append_nil]
      refine h.delivered fun earlier hearlier => horder post ?_ earlier ?_
      · simp [Op.read?]
      · simpa using hearlier
  | deleteImage urls index =>
    have hdeletions : ∀ ok, ∀ op ∈ nextDeletion urls index ok, op.Writes i id := by
      intro ok op hmem
      rw [mem_nextDeletion hmem]
      trivial
    cases answered_of_answer hanswer with
    | failed _ hno => exact absurd rfl (hno urls index)
    | removed =>
      exact (h.erase hop).frame (fun w hw => ⟨w, hw, rfl⟩) rfl (hdeletions true)
    | kept => exact absurd rfl hr
  | setData | deleteDocument => exact hop.elim

end Chasing

/-- **The shown post catches up**: whenever the only writer is at rest it shows the stored
post, if no response was overtaken by another post. -/
theorem caught_up {s : App} {vm : PostVM} {i : Nat} {id : String} {es : List (Event Call Reply)}
    {c : Config App Op} (hvm : s.vms[i]? = some vm)
    (hshown : (s.posts id).bind (Post.decode id) = some vm.post) (halone : ∀ e ∈ es, Alone i e)
    (hrun : app.machine.run ⟨s, []⟩ es = some c) (hrest : c.pending = [])
    (horder : app.machine.Along InReadOrder ⟨s, []⟩ es) :
    ∃ vm', c.core.vms[i]? = some vm' ∧ (c.core.posts id).bind (Post.decode id) = some vm'.post := by
  have hstart : Chasing i id s [] := by
    obtain ⟨document, -, hdecode⟩ := Option.bind_eq_some_iff.mp hshown
    exact ⟨List.forall_mem_nil _, vm, vm.post, hvm, id_of_decode hdecode, hshown, Or.inr rfl⟩
  have hkept : Chasing i id c.core c.pending := by
    refine Service.run_inv (I := Chasing i id) ?_ ?_ hstart
      ((Machine.along_of_mem halone _).and horder) hrun
    · intro s ops x s' new hI hP hcall
      exact hI.call hP.1 hcall
    · intro s pre op tail r s' new hI hP hanswer
      exact hI.answer hP.1 hP.2 hanswer
  obtain ⟨vm', stored, hvm', -, hstored, hchase⟩ := hkept.chases
  refine ⟨vm', hvm', ?_⟩
  rw [hrest] at hchase
  rcases hchase with ⟨op, hop, -⟩ | rfl
  · exact absurd hop List.not_mem_nil
  · exact hstored

/-- Ann shows her post, and no one else shows any. -/
def annsPhone : App := { annsStore with vms := [PostVM.init (some "ann") annsPost] }

def annsName (name : String) : PostForm := ⟨name, 0, "Duke University", "Durham", "Tall", []⟩

/-- Ann renames her friend twice.  Both names have been read when the responses arrive. -/
def renamedTwice (first second : Nat) : List (Event Call Reply) :=
  [.call (.fill 0 (annsName "Bea")), .call (.save 0), .answer 0 .ok, .answer 0 .ok,
    .call (.fill 0 (annsName "Bella")), .call (.save 0), .answer 1 .ok, .answer 1 .ok,
    .answer first .ok, .answer second .ok]

theorem shown_annsPhone :
    (annsPhone.posts "p").bind (Post.decode "p") = some annsPost := decode_encode "p" annsPost

theorem caught_up_example : ∃ c, app.machine.run ⟨annsPhone, []⟩ (renamedTwice 0 0) = some c ∧
    ∃ vm, c.core.vms[0]? = some vm ∧ (c.core.posts "p").bind (Post.decode "p") = some vm.post := by
  have hrun : ∃ c, app.machine.run ⟨annsPhone, []⟩ (renamedTwice 0 0) = some c ∧ c.pending = [] :=
    ⟨_, rfl, rfl⟩
  obtain ⟨c, hrun, hrest⟩ := hrun
  exact ⟨c, hrun, caught_up rfl shown_annsPhone (by decide) hrun hrest (by decide +kernel)⟩

/-- The first response arrives last, and the first name stays. -/
theorem not_caught_up : ¬ ∀ (s : App) (vm : PostVM) (i : Nat) (id : String)
    (es : List (Event Call Reply)) (c : Config App Op), s.vms[i]? = some vm →
      (s.posts id).bind (Post.decode id) = some vm.post → (∀ e ∈ es, Alone i e) →
      app.machine.run ⟨s, []⟩ es = some c → c.pending = [] →
        ∃ vm', c.core.vms[i]? = some vm' ∧
          (c.core.posts id).bind (Post.decode id) = some vm'.post := by
  intro h
  have hrun : ∃ c vm' stored, app.machine.run ⟨annsPhone, []⟩ (renamedTwice 1 0) = some c ∧
      c.pending = [] ∧ c.core.vms[0]? = some vm' ∧
      (c.core.posts "p").bind (Post.decode "p") = some stored ∧ vm'.post.name ≠ stored.name :=
    ⟨_, _, _, rfl, rfl, rfl, rfl, by decide⟩
  obtain ⟨c, vm', stored, hrun, hrest, hvm', hstored, hne⟩ := hrun
  obtain ⟨w, hw, hshown⟩ := h annsPhone _ 0 "p" _ c rfl shown_annsPhone (by decide) hrun hrest
  obtain rfl := Option.some.inj (hvm'.symm.trans hw)
  exact hne (congrArg Post.name (Option.some.inj (hshown.symm.trans hstored)))

end Subtle.Feed
