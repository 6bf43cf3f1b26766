import Subtle.Feed.Likes
import Subtle.Feed.Submission
import Subtle.Lib.Conservation
import Mathlib.Algebra.Order.BigOperators.Group.List
import Mathlib.Data.Multiset.OrderedMonoid

/-!
# Posts arrive

A form that is completed makes a post.  The post is on its way while its images are uploaded
and while it is written, and an operation that fails loses it.

* `postLedger`: the posts that are on their way or have been written.
* `posts_arrive`: **every completed form leads to at most one write of its post, and to one,
  with the pictures of all images, if no operation on the way fails**; the post is then stored,
  with the changes on record since, each of which was asked for, unless its deletion was.
-/

namespace Subtle.Feed

open Subtle.Firestore Subtle.Lib Subtle.Storage

/-! ### The posts on their way -/

/-- The post that a form makes, by its id. -/
def Call.posting : Call → Multiset (Option String)
  | .submit currentUser form _ id creationDate =>
      ((formCompletion currentUser form id creationDate).toList.map Post.id : List _)
  | _ => 0

/-- The new post that an operation is to write, by its id. -/
def Op.posting : Op → Multiset (Option String)
  | upload _ _ _ (.addPost currentUser post) =>
      ((addPost currentUser post).map fun _ => post.id : List _)
  | setData _ post => {post.id}
  | _ => 0

variable {s s' : App} {log log' : SubmissionLog} {op : Op} {new : List Op} {post : Post}

theorem sum_posting_eq_zero (h : ∀ op ∈ new, op.posting = 0) : (new.map Op.posting).sum = 0 :=
  List.sum_eq_zero fun _ hx => by
    obtain ⟨op, hop, rfl⟩ := List.mem_map.mp hx
    exact h op hop

/-- The write of a post, whatever pictures it lists. -/
theorem posting_addPost (currentUser : Option String) (post : Post) (urls : List URL) :
    ((addPost currentUser { post with pictures := urls }).map Op.posting).sum =
      ((addPost currentUser post).map fun _ => post.id : List _) := by
  unfold addPost
  cases currentUser <;> cases post.id <;> simp [Op.posting]

theorem posting_of_ne_none {currentUser : Option String} (huser : currentUser ≠ none)
    (hid : post.id ≠ none) : (addPost currentUser post).map (fun _ => post.id) = [post.id] := by
  obtain ⟨user, rfl⟩ := Option.ne_none_iff_exists'.mp huser
  obtain ⟨id, hid⟩ := Option.ne_none_iff_exists'.mp hid
  simp [addPost, hid]

/-- A batch of uploads for a post goes on with the next one, or with the write. -/
theorem posting_addImageHelper (s : App) (urls : List URL) (currentUser : Option String)
    (post : Post) (images : List UIImage) :
    ((s.addImageHelper urls (.addPost currentUser post) images).map Op.posting).sum =
      ((addPost currentUser post).map fun _ => post.id : List _) := by
  cases images with
  | nil => exact posting_addPost currentUser post urls
  | cons image rest => exact add_zero _

/-- A batch of uploads for an edit form writes no new post. -/
theorem posting_modifyPost {i : Nat} {params : Document} {newImages urls : List URL}
    {images : List UIImage}
    (h : op ∈ s.addImageHelper urls (.modifyPost i params newImages) images) :
    op.posting = 0 := by
  cases images with
  | cons image rest =>
    obtain rfl := List.mem_singleton.mp h
    rfl
  | nil =>
    simp only [App.addImageHelper, App.uploaded] at h
    split at h
    · obtain ⟨id, rfl⟩ := mem_modifyPost h
      rfl
    · exact absurd h List.not_mem_nil

theorem posting_save {i : Nat} {vm : PostVM} (h : op ∈ editPostAndImages s i vm) :
    op.posting = 0 := by
  unfold editPostAndImages App.addImages at h
  split at h
  · split at h
    · exact posting_modifyPost h
    · exact absurd h List.not_mem_nil
  · rcases List.mem_append.mp h with h | h
    · obtain ⟨id, rfl⟩ := mem_modifyPost h
      rfl
    · obtain ⟨index, rfl⟩ := mem_startDeletion h
      rfl

/-- **What a call sends on its way**: the post of its form, or nothing. -/
theorem posting_call {x : Call} (h : Called s x s' new) :
    (x.posting = 0 ∧ ∀ op ∈ new, op.posting = 0) ∨
      ∃ currentUser post images, x.posting = {post.id} ∧ currentUser ≠ none ∧ post.id ≠ none ∧
        new = s.addImageHelper [] (.addPost currentUser post) images := by
  cases h with
  | submitted currentUser form images id creationDate post hpost =>
    right
    obtain ⟨user, rfl, rfl⟩ := Option.map_eq_some_iff.mp hpost
    exact ⟨some user, _, images, rfl, Option.some_ne_none _, Option.some_ne_none _, rfl⟩
  | opened | filled | imageAdded | toggled | imagesDeleted =>
    exact Or.inl ⟨rfl, List.forall_mem_nil _⟩
  | saved i vm hvm hshows => exact Or.inl ⟨rfl, fun op hop => posting_save hop⟩
  | liked i vm =>
    refine Or.inl ⟨rfl, fun op hop => ?_⟩
    obtain ⟨id, user, rfl⟩ := mem_likePost hop
    rfl
  | unliked i vm =>
    refine Or.inl ⟨rfl, fun op hop => ?_⟩
    obtain ⟨id, user, rfl⟩ := mem_unlikePost hop
    rfl
  | postDeleted i vm =>
    refine Or.inl ⟨rfl, fun op hop => ?_⟩
    obtain ⟨id, rfl⟩ := mem_deletePost hop
    rfl

/-- **What an answer does to the post of its operation**: it fails, goes on with the images or
the write, or writes the post; other operations have none. -/
theorem posting_answer {r : Reply} (h : Answered s op r s' new) :
    (r = .error ∧ new = []) ∨ (op.posting = 0 ∧ ∀ op' ∈ new, op'.posting = 0) ∨
      (∃ image rest urls currentUser post url,
        op = .upload image rest urls (.addPost currentUser post) ∧ r = .uploaded url ∧
          new = s'.addImageHelper (urls ++ [url]) (.addPost currentUser post) rest) ∨
        ∃ id post, op = .setData id post ∧ r = .ok ∧ new = [] := by
  cases h with
  | failed op hop => exact Or.inl ⟨rfl, rfl⟩
  | uploaded image rest urls after url hfresh =>
    cases after with
    | addPost currentUser post =>
      exact Or.inr (Or.inr (Or.inl ⟨image, rest, urls, currentUser, post, url, rfl, rfl, rfl⟩))
    | modifyPost i params newImages =>
      exact Or.inr (Or.inl ⟨rfl, fun op hop => posting_modifyPost hop⟩)
  | created id p => exact Or.inr (Or.inr (Or.inr ⟨id, p, rfl, rfl, rfl⟩))
  | missing | delivered | deleted => exact Or.inr (Or.inl ⟨rfl, List.forall_mem_nil _⟩)
  | updated i id change document hdoc =>
    refine Or.inr (Or.inl ⟨rfl, fun op hop => ?_⟩)
    obtain rfl := List.mem_singleton.mp hop
    rfl
  | read i id p =>
    refine Or.inr (Or.inl ⟨rfl, fun op hop => ?_⟩)
    obtain rfl := List.mem_singleton.mp hop
    rfl
  | removed urls index | kept urls index =>
    refine Or.inr (Or.inl ⟨rfl, fun op hop => ?_⟩)
    rw [mem_nextDeletion hop]
    rfl

/-! ### The ledger -/

/-- The posts that were written, by their ids. -/
def SubmissionLog.written (log : SubmissionLog) : Multiset (Option String) :=
  (log.stored.map Post.id : List _)

theorem written_noteCall {x : Call} (h : log.noteCall s x = some log') :
    log'.stored = log.stored := by
  cases x with
  | submit currentUser form images id creationDate =>
    obtain ⟨post, -, rfl⟩ := Option.map_eq_some_iff.mp h
    rfl
  | _ =>
    obtain rfl := Option.some.inj h
    rfl

/-- Only the write of a post changes what was written. -/
theorem written_noteAnswer {r : Reply} (hnote : log.noteAnswer s op r = some log')
    (hop : r = .error ∨ op.posting = 0) : log'.stored = log.stored := by
  cases op with
  | upload image rest urls after =>
    cases r <;> cases after <;> obtain rfl := Option.some.inj hnote <;> rfl
  | setData id post =>
    rcases hop with rfl | hop
    · obtain rfl := Option.some.inj hnote
      rfl
    · exact absurd hop (Multiset.singleton_ne_zero _)
  | _ =>
    obtain rfl := Option.some.inj hnote
    rfl

/-- An answer carries the post of its operation on, or fails and loses it. -/
theorem holds_answer {r : Reply} (hnote : log.noteAnswer s op r = some log')
    (h : Answered s op r s' new) :
    log'.written + (new.map Op.posting).sum = log.written + op.posting ∨
      r = .error ∧ log'.written + (new.map Op.posting).sum = log.written := by
  rcases posting_answer h with ⟨rfl, rfl⟩ | ⟨hop, hnew⟩ |
    ⟨image, rest, urls, currentUser, post, url, rfl, rfl, rfl⟩ | ⟨id, post, rfl, rfl, rfl⟩
  · right
    rw [SubmissionLog.written, written_noteAnswer hnote (Or.inl rfl)]
    exact ⟨rfl, add_zero _⟩
  · left
    rw [SubmissionLog.written, written_noteAnswer hnote (Or.inr hop), sum_posting_eq_zero hnew, hop]
    rfl
  · obtain rfl := Option.some.inj hnote
    rw [posting_addImageHelper]
    exact Or.inl rfl
  · obtain rfl := Option.some.inj hnote
    left
    rw [List.map_nil, List.sum_nil, add_zero, SubmissionLog.written, List.map_append,
      ← Multiset.coe_add]
    rfl

/-- The ledger of the posts that are on their way or were written. -/
def postLedger : Ledger submissions (Option String) where
  brings := Call.posting
  carries := Op.posting
  keeps p := p.2.written
  call := by
    rintro ⟨s, log⟩ x ⟨s', log'⟩ new h
    obtain ⟨hnote, hcall⟩ := Service.watched_call h
    show log'.written + _ = log.written + _
    rw [SubmissionLog.written, written_noteCall hnote]
    have hcalled : Called s x s' new := called_of_call hcall
    rcases posting_call hcalled with ⟨hx, hnew⟩ | ⟨currentUser, post, images, hx, huser, hid, rfl⟩
    · rw [hx, sum_posting_eq_zero hnew]
      rfl
    · rw [hx, posting_addImageHelper, posting_of_ne_none huser hid]
      rfl
  answer := by
    rintro ⟨s, log⟩ op r ⟨s', log'⟩ new h
    obtain ⟨hnote, hanswer⟩ := Service.watched_answer h
    rcases holds_answer hnote (answered_of_answer hanswer) with heq | ⟨-, heq⟩
    · exact heq.le
    · exact heq.le.trans (Multiset.le_add_right _ _)

/-- An answer does not fail an operation on the way to a post. -/
def Op.Succeeds (op : Op) (r : Reply) : Prop := r = .error → op.posting = 0

instance Op.decidableSucceeds (op : Op) (r : Reply) : Decidable (op.Succeeds r) :=
  inferInstanceAs (Decidable (r = .error → op.posting = 0))

theorem lossless_of_posted {p : App × SubmissionLog} {r : Reply} (h : op.Succeeds r) :
    postLedger.Lossless p op r := by
  rintro ⟨s', log'⟩ new hx
  obtain ⟨s, log⟩ := p
  obtain ⟨hnote, hanswer⟩ := Service.watched_answer hx
  rcases holds_answer hnote (answered_of_answer hanswer) with heq | ⟨hr, heq⟩
  · exact heq
  · show log'.written + _ = log.written + op.posting
    rw [h hr, add_zero]
    exact heq

/-! ### Runs -/

/-- The ids of the posts that were submitted. -/
def SubmissionLog.ids (log : SubmissionLog) : List (Option String) :=
  log.submitted.map fun p => p.1.id

/-- A form makes a post with an id that no post had before. -/
def NewSubmission (p : App × SubmissionLog) : Call → Prop
  | .submit _ _ _ id _ => some id ∉ p.2.ids
  | _ => True

instance (p : App × SubmissionLog) : ∀ x, Decidable (NewSubmission p x)
  | .submit _ _ _ id _ => inferInstanceAs (Decidable (some id ∉ p.2.ids))
  | .openPost .. | .fill .. | .addImage .. | .toggle .. | .deleteImages .. | .save _ | .like _
  | .unlike _ | .deletePost _ => isTrue trivial

theorem ids_noteCall {x : Call} (h : log.noteCall s x = some log') :
    (log'.ids : Multiset (Option String)) = log.ids + x.posting := by
  cases x with
  | submit currentUser form images id creationDate =>
    obtain ⟨post, hpost, rfl⟩ := Option.map_eq_some_iff.mp h
    rw [SubmissionLog.ids, List.map_append, ← Multiset.coe_add, Call.posting, hpost]
    rfl
  | _ =>
    obtain rfl := Option.some.inj h
    exact (add_zero _).symm

theorem submitted_noteAnswer {r : Reply} (h : log.noteAnswer s op r = some log') :
    log'.submitted = log.submitted := by
  cases op with
  | upload image rest urls after =>
    cases r <;> cases after <;> obtain rfl := Option.some.inj h <;> rfl
  | setData id post =>
    cases r <;> obtain rfl := Option.some.inj h <;> rfl
  | _ =>
    obtain rfl := Option.some.inj h
    rfl

/-- A post is written under its own id. -/
def Op.Addressed : Op → Prop
  | setData id post => post.id = some id
  | _ => True

theorem addressed_of_posting (h : op.posting = 0) : op.Addressed := by
  cases op with
  | setData id post => exact absurd h (Multiset.singleton_ne_zero _)
  | _ => trivial

theorem addressed_addPost {currentUser : Option String} {p : Post}
    (h : op ∈ addPost currentUser p) : op.Addressed := by
  obtain ⟨id, rfl⟩ := mem_addPost h
  show p.id = some id
  cases currentUser with
  | none => exact absurd h List.not_mem_nil
  | some user =>
    cases hid : p.id with
    | none => exact absurd h (by simp [addPost, hid])
    | some id' =>
      simp only [addPost, hid, List.mem_singleton, Op.setData.injEq] at h
      rw [h.1]

theorem addressed_addImageHelper {urls : List URL} {currentUser : Option String}
    {images : List UIImage} (h : op ∈ s.addImageHelper urls (.addPost currentUser post) images) :
    op.Addressed := by
  cases images with
  | cons image rest =>
    obtain rfl := List.mem_singleton.mp h
    trivial
  | nil => exact addressed_addPost h

theorem addressed_call {x : Call} (h : Called s x s' new) : ∀ op ∈ new, op.Addressed := by
  intro op hop
  rcases posting_call h with ⟨-, hnew⟩ | ⟨currentUser, post, images, -, -, -, rfl⟩
  · exact addressed_of_posting (hnew op hop)
  · exact addressed_addImageHelper hop

theorem addressed_answer {r : Reply} (h : Answered s op r s' new) : ∀ op ∈ new, op.Addressed := by
  intro op' hop
  rcases posting_answer h with ⟨-, rfl⟩ | ⟨-, hnew⟩ |
    ⟨image, rest, urls, currentUser, post, url, -, -, rfl⟩ | ⟨id, post, -, -, rfl⟩
  · exact absurd hop List.not_mem_nil
  · exact addressed_of_posting (hnew op' hop)
  · exact addressed_addImageHelper hop
  · exact absurd hop List.not_mem_nil

/-! ### What was written stays -/

/-- The post was written, and is changed by edits and likes only. -/
def App.Made (s : App) (post : Post) : Prop :=
  ∃ id changes, post.id = some id ∧ s.history id = some (post.encode, changes)

/-- An answer writes or deletes a post, or leaves it made. -/
theorem made_answer {r : Reply} (h : Answered s op r s' new) (hop : op.Addressed)
    (hmade : s.Made post) : s'.Made post ∨ (∃ id, post.id = some id ∧ op = .deleteDocument id) ∨
      ∃ id p, op = .setData id p ∧ p.id = post.id := by
  obtain ⟨id, changes, hid, hhistory⟩ := hmade
  have hkept : s'.history id = s.history id → s'.Made post := fun heq =>
    ⟨id, changes, hid, heq.trans hhistory⟩
  cases h with
  | failed | uploaded | missing | read | delivered | removed | kept => exact Or.inl (hkept rfl)
  | created id' p =>
    by_cases heq : id = id'
    · subst heq
      have hpid : p.id = some id := hop
      exact Or.inr (Or.inr ⟨id, p, rfl, hpid.trans hid.symm⟩)
    · exact Or.inl (hkept (Function.update_of_ne heq _ _))
  | updated i id' change document hdoc =>
    by_cases heq : id = id'
    · subst heq
      refine Or.inl ⟨id, changes ++ [change], hid, ?_⟩
      show Function.update s.history id _ id = _
      rw [Function.update_self, hhistory]
      rfl
    · exact Or.inl (hkept (Function.update_of_ne heq _ _))
  | deleted id' =>
    by_cases heq : id = id'
    · subst heq
      exact Or.inr (Or.inl ⟨id, hid, rfl⟩)
    · exact Or.inl (hkept (Function.update_of_ne heq _ _))

/-- What is recorded as written was recorded before, or is made now. -/
theorem stored_answer {r : Reply} (hnote : log.noteAnswer s op r = some log')
    (h : Answered s op r s' new) (hop : op.Addressed) :
    ∀ p ∈ log'.stored, p ∈ log.stored ∨ s'.Made p := by
  intro p hp
  cases h with
  | created id post =>
    obtain rfl := Option.some.inj hnote
    refine (List.mem_append.mp hp).imp_right fun hp => ?_
    obtain rfl := List.mem_singleton.mp hp
    exact ⟨id, [], hop, Function.update_self _ _ _⟩
  | failed op _ => exact Or.inl (written_noteAnswer hnote (Or.inl rfl) ▸ hp)
  | uploaded image rest urls after url hfresh =>
    cases after <;> obtain rfl := Option.some.inj hnote <;> exact Or.inl hp
  | updated | missing | read | delivered | removed | kept | deleted =>
    exact Or.inl (written_noteAnswer hnote (Or.inr rfl) ▸ hp)

/-- A change on record was there before, or is committed now. -/
theorem history_answer {r : Reply} (h : Answered s op r s' new) {id : String}
    {created : Document} {changes : List Change} {change : Change}
    (hhistory : s'.history id = some (created, changes)) (hchange : change ∈ changes) :
    (∃ changes₀, s.history id = some (created, changes₀) ∧ change ∈ changes₀) ∨
      ∃ i, op = .updateData i id change := by
  cases h with
  | failed | uploaded | missing | read | delivered | removed | kept =>
    exact Or.inl ⟨changes, hhistory, hchange⟩
  | created id' p =>
    by_cases heq : id = id'
    · subst heq
      obtain ⟨-, rfl⟩ :=
        Prod.mk.inj (Option.some.inj ((Function.update_self id _ _).symm.trans hhistory))
      exact absurd hchange List.not_mem_nil
    · exact Or.inl ⟨changes, (Function.update_of_ne heq _ _).symm.trans hhistory, hchange⟩
  | updated i id' change' document hdoc =>
    by_cases heq : id = id'
    · subst heq
      obtain ⟨⟨created₀, changes₀⟩, hold, hnew⟩ :=
        Option.map_eq_some_iff.mp ((Function.update_self id _ _).symm.trans hhistory)
      obtain ⟨rfl, rfl⟩ := Prod.mk.inj hnew
      rcases List.mem_append.mp hchange with hchange | hchange
      · exact Or.inl ⟨changes₀, hold, hchange⟩
      · obtain rfl := List.mem_singleton.mp hchange
        exact Or.inr ⟨i, rfl⟩
    · exact Or.inl ⟨changes, (Function.update_of_ne heq _ _).symm.trans hhistory, hchange⟩
  | deleted id' =>
    by_cases heq : id = id'
    · subst heq
      exact absurd ((Function.update_self id _ _).symm.trans hhistory) (Option.some_ne_none _).symm
    · exact Or.inl ⟨changes, (Function.update_of_ne heq _ _).symm.trans hhistory, hchange⟩

theorem nodup_noteCall {x : Call} (h : log.ids.Nodup) (hnew : NewSubmission (s, log) x)
    (hnote : log.noteCall s x = some log') : log'.ids.Nodup := by
  have hids := ids_noteCall hnote
  rw [← Multiset.coe_nodup, hids]
  cases x with
  | submit currentUser form images id creationDate =>
    obtain ⟨post, hpost, -⟩ := Option.map_eq_some_iff.mp hnote
    obtain ⟨user, -, rfl⟩ := Option.map_eq_some_iff.mp hpost
    rw [Call.posting, hpost]
    refine (Multiset.nodup_add.mpr ⟨h, List.nodup_singleton _, ?_⟩)
    exact Multiset.disjoint_singleton.mpr hnew
  | _ => exact (add_zero (log.ids : Multiset (Option String))).symm ▸ h

/-! ### Runs -/

variable {c₀ c c' : Config (App × SubmissionLog) Op} {es : List (Event Call Reply)}

/-- The change of the post was asked for at some moment of the run. -/
def Asked (c₀ : Config (App × SubmissionLog) Op) (es : List (Event Call Reply)) (id : String)
    (change : Change) : Prop :=
  submissions.machine.Sometime (fun c => ∃ i, .updateData i id change ∈ c.pending) c₀ es

/-- What was submitted is on its way, was lost or was written; and what was written is there,
unless its deletion was asked for. -/
structure Arrived (c₀ : Config (App × SubmissionLog) Op) (es : List (Event Call Reply))
    (c : Config (App × SubmissionLog) Op) : Prop where
  run : submissions.machine.run c₀ es = some c
  brought : postLedger.brought es = (c.core.2.ids : Multiset (Option String))
  nodup : c.core.2.ids.Nodup
  addressed : ∀ op ∈ c.pending, op.Addressed
  made : ∀ post ∈ c.core.2.stored, c.core.1.Made post ∨ ∃ id, post.id = some id ∧
    submissions.machine.Sometime (fun c => .deleteDocument id ∈ c.pending) c₀ es
  changes : ∀ id created changes, c.core.1.history id = some (created, changes) →
    ∀ change ∈ changes, Asked c₀ es id change

namespace Arrived

/-- No post is on its way, or was written, twice. -/
theorem nodup_holds (h : Arrived c₀ es c) (hstart : postLedger.holds c₀ = 0) :
    (postLedger.holds c).Nodup := by
  have hle := Ledger.run_le (L := postLedger) h.run
  rw [hstart, zero_add, h.brought] at hle
  exact Multiset.nodup_of_le hle (Multiset.coe_nodup.mpr h.nodup)

/-- A post is not written a second time. -/
theorem not_written (h : Arrived c₀ es c) (hstart : postLedger.holds c₀ = 0) {id : String}
    {p : Post} (hpending : .setData id p ∈ c.pending) (hstored : post ∈ c.core.2.stored) :
    p.id ≠ post.id := by
  intro heq
  have hdisjoint := (Multiset.nodup_add.mp (h.nodup_holds hstart)).2.2
  refine Multiset.disjoint_left.mp hdisjoint (Multiset.mem_coe.mpr (List.mem_map_of_mem hstored)) ?_
  rw [← heq]
  have hle : Op.posting (.setData id p) ≤ (c.pending.map Op.posting).sum :=
    List.le_sum_of_mem (List.mem_map_of_mem hpending)
  exact Multiset.mem_of_le hle (Multiset.mem_singleton_self _)

theorem call (h : Arrived c₀ es c) {x : Call} (hnew : NewSubmission c.core x)
    (hstep : submissions.machine.step c (.call x) = some c') :
    Arrived c₀ (es ++ [.call x]) c' := by
  have hrun := Machine.run_concat h.run hstep
  obtain ⟨⟨s, log⟩, ops⟩ := c
  obtain ⟨⟨⟨s', log'⟩, new⟩, hcall, rfl⟩ := Option.map_eq_some_iff.mp hstep
  obtain ⟨hnote, hcall⟩ := Service.watched_call hcall
  have hcalled : Called s x s' new := called_of_call hcall
  obtain ⟨-, hhistory, -⟩ := call_frames hcalled
  refine ⟨hrun, ?_, nodup_noteCall h.nodup hnew hnote, fun op hop => ?_, fun post hpost => ?_,
    fun id created changes hid change hchange => ?_⟩
  · rw [Ledger.brought_concat, h.brought]
    exact (ids_noteCall hnote).symm
  · exact (List.mem_append.mp hop).elim (h.addressed op) (addressed_call hcalled op)
  · rw [show log'.stored = log.stored from written_noteCall hnote] at hpost
    rcases h.made post hpost with ⟨id, changes, hid, hmade⟩ | ⟨id, hid, hdeleted⟩
    · exact Or.inl ⟨id, changes, hid, by rw [← hmade]; exact congrFun hhistory id⟩
    · exact Or.inr ⟨id, hid, hdeleted.append _⟩
  · have hid' : s.history id = some (created, changes) := hhistory ▸ hid
    exact (h.changes id created changes hid' change hchange).append _

theorem answer (h : Arrived c₀ es c) (hstart : postLedger.holds c₀ = 0) {k : Nat} {r : Reply}
    (hstep : submissions.machine.step c (.answer k r) = some c') :
    Arrived c₀ (es ++ [.answer k r]) c' := by
  have hrun := Machine.run_concat h.run hstep
  obtain ⟨op, hop, hstep⟩ := Option.bind_eq_some_iff.mp hstep
  obtain ⟨⟨⟨s', log'⟩, new⟩, hanswer, rfl⟩ := Option.map_eq_some_iff.mp hstep
  obtain ⟨hnote, hanswer⟩ := Service.watched_answer hanswer
  have hanswered := answered_of_answer hanswer
  have hpending := List.mem_of_getElem? hop
  have haddressed := h.addressed op hpending
  have hids : log'.ids = c.core.2.ids := congrArg (List.map _) (submitted_noteAnswer hnote)
  refine ⟨hrun, ?_, ?_, fun op' hop' => ?_, fun post hpost => ?_,
    fun id created changes hid change hchange => ?_⟩
  · rw [Ledger.brought_concat, h.brought]
    show _ + 0 = (log'.ids : Multiset (Option String))
    rw [add_zero, hids]
  · show log'.ids.Nodup
    exact hids ▸ h.nodup
  · rcases List.mem_append.mp hop' with hop' | hop'
    · exact h.addressed op' (List.mem_of_mem_eraseIdx hop')
    · exact addressed_answer hanswered op' hop'
  · rcases stored_answer hnote hanswered haddressed post hpost with hstored | hmade
    · rcases h.made post hstored with hmade | ⟨id, hid, hdeleted⟩
      · rcases made_answer hanswered haddressed hmade with hmade' | ⟨id, hid, rfl⟩ |
          ⟨id, p, rfl, hsame⟩
        · exact Or.inl hmade'
        · exact Or.inr ⟨id, hid, (Machine.sometime_of_run h.run hpending).append _⟩
        · exact absurd hsame (h.not_written hstart hpending hstored)
      · exact Or.inr ⟨id, hid, hdeleted.append _⟩
    · exact Or.inl hmade
  · rcases history_answer hanswered hid hchange with ⟨changes₀, hold, hchange⟩ | ⟨i, rfl⟩
    · exact (h.changes id created changes₀ hold change hchange).append _
    · have hasked : ∃ i, .updateData i id change ∈ c.pending := ⟨i, hpending⟩
      exact (Machine.sometime_of_run h.run hasked).append _

end Arrived

variable {posts : String → Option Document} {objects : Finset URL}

theorem arrived_run
    (hnew : submissions.machine.Along (Service.OnCall NewSubmission)
      (submissions.start posts objects) es)
    (hrun : submissions.machine.run (submissions.start posts objects) es = some c) :
    Arrived (submissions.start posts objects) es c := by
  refine Machine.run_trace_inv_along
    (I := fun c es => Arrived (submissions.start posts objects) es c) ?_ (h := []) ?_ hnew hrun
  · intro c es e c' h hnew hstep
    cases e with
    | call x => exact h.call hnew hstep
    | answer k r => exact h.answer rfl hstep
  · exact ⟨rfl, rfl, List.nodup_nil, List.forall_mem_nil _, List.forall_mem_nil _,
      fun _ _ _ hid => absurd hid (Option.some_ne_none _).symm⟩

/-- What is stored are the posts that were made, with the writes since. -/
theorem replayed_submissions
    (hrun : submissions.machine.run (submissions.start posts objects) es = some c) :
    Replayed c.core.1 c.pending := by
  refine Service.run_inv_of_step (I := fun p ops => Replayed p.1 ops)
    (c := submissions.start posts objects) ?_ ?_ ⟨List.forall_mem_nil _, ?_⟩ hrun
  · rintro ⟨s, log⟩ ops x ⟨s', log'⟩ new h hx
    obtain ⟨-, hcall⟩ := Service.watched_call hx
    obtain ⟨hposts, hhistory, hnew⟩ := call_frames (called_of_call hcall)
    refine ⟨fun op hop => (List.mem_append.mp hop).elim (h.frames op) (hnew op), ?_⟩
    rw [hposts, hhistory]
    exact h.history
  · rintro ⟨s, log⟩ pre op post r ⟨s', log'⟩ new h hx
    obtain ⟨-, hanswer⟩ := Service.watched_answer hx
    exact replayed_answer h (answered_of_answer hanswer)
  · intro id created changes hid
    exact absurd hid (Option.some_ne_none _).symm

/-- If nothing on the way to a post failed or is left to do, all that was submitted was
written. -/
theorem written_eq_ids (h : Arrived (submissions.start posts objects) es c)
    (hsucceeds : submissions.machine.Along (Service.OnAnswer fun _ op r => op.Succeeds r)
      (submissions.start posts objects) es) (hquiet : ∀ op ∈ c.pending, op.posting = 0) :
    c.core.2.written = (c.core.2.ids : Multiset (Option String)) := by
  have hlossless : submissions.machine.Along (Service.OnAnswer postLedger.Lossless)
      (submissions.start posts objects) es := hsucceeds.mono fun c e he => by
    cases e with
    | call x => trivial
    | answer k r => exact fun op hop => lossless_of_posted (he op hop)
  calc c.core.2.written = postLedger.holds c := by
        show _ = c.core.2.written + (c.pending.map Op.posting).sum
        rw [sum_posting_eq_zero hquiet, add_zero]
    _ = postLedger.holds (submissions.start posts objects) + postLedger.brought es :=
        Ledger.run_eq h.run hlossless
    _ = 0 + postLedger.brought es := rfl
    _ = c.core.2.ids := by rw [zero_add, h.brought]

/-- **Every form that is completed leads to one write of its post at most, and to one, with the
pictures of all its images in order, if no operation on the way fails**; what was written is
stored, with exactly the changes on record since, each of which was asked for, unless its
deletion was asked for. -/
theorem posts_arrive
    (hnew : submissions.machine.Along (Service.OnCall NewSubmission)
      (submissions.start posts objects) es)
    (hrun : submissions.machine.run (submissions.start posts objects) es = some c) :
    (c.core.2.stored.map Post.id).Nodup ∧
    (∀ post ∈ c.core.2.stored, ∃ id, post.id = some id ∧
      ((∃ changes, c.core.1.history id = some (post.encode, changes) ∧
          c.core.1.posts id = some (commitAll changes post.encode) ∧
          ∀ change ∈ changes, Asked (submissions.start posts objects) es id change) ∨
        submissions.machine.Sometime (fun c => .deleteDocument id ∈ c.pending)
          (submissions.start posts objects) es)) ∧
    (submissions.machine.Along (Service.OnAnswer fun _ op r => op.Succeeds r)
        (submissions.start posts objects) es →
      (∀ op ∈ c.pending, op.posting = 0) → ∀ post images,
        (post, images) ∈ c.core.2.submitted → ∃ urls, c.core.2.PicturesOf post images urls ∧
          { post with pictures := urls } ∈ c.core.2.stored) := by
  have h := arrived_run hnew hrun
  refine ⟨?_, fun post hpost => ?_, fun hsucceeds hquiet post images hsubmitted => ?_⟩
  · have hnodup := h.nodup_holds rfl
    exact Multiset.coe_nodup.mp (Multiset.nodup_add.mp hnodup).1
  · rcases h.made post hpost with ⟨id, changes, hid, hhistory⟩ | ⟨id, hid, hdeleted⟩
    · obtain ⟨-, -, hstored⟩ := (replayed_submissions hrun).history id _ changes hhistory
      exact ⟨id, hid, Or.inl ⟨changes, hhistory, hstored, h.changes id _ changes hhistory⟩⟩
    · exact ⟨id, hid, Or.inr hdeleted⟩
  · have hwritten := written_eq_ids h hsucceeds hquiet
    have hmem : post.id ∈ c.core.2.written := by
      rw [hwritten]
      exact Multiset.mem_coe.mpr (List.mem_map_of_mem (f := fun p => p.1.id) hsubmitted)
    obtain ⟨stored, hstored, hid⟩ := List.mem_map.mp hmem
    obtain ⟨post', images', hsubmitted', heq, hpictures⟩ :=
      (submitted_run hrun).stored stored hstored
    -- the write is that of this form, as no other form makes a post of its id
    have hid' : post'.id = post.id := by
      rw [← hid, heq]
    obtain ⟨rfl, rfl⟩ := Prod.mk.inj (List.inj_on_of_nodup_map h.nodup hsubmitted' hsubmitted hid')
    exact ⟨stored.pictures, hpictures, heq ▸ hstored⟩

theorem posts_arrive_example : ∃ c,
    submissions.machine.run (submissions.start (fun _ => none) ∅) submission = some c ∧
    (c.core.2.stored.map Post.id).Nodup ∧ ∃ post, (post, ["x", "y"]) ∈ c.core.2.submitted ∧
      ∃ urls, c.core.2.PicturesOf post ["x", "y"] urls ∧
        { post with pictures := urls } ∈ c.core.2.stored := by
  have hrun : ∃ c, submissions.machine.run (submissions.start (fun _ => none) ∅) submission =
      some c ∧ c.pending = [] ∧ ∃ post, (post, ["x", "y"]) ∈ c.core.2.submitted :=
    ⟨_, rfl, rfl, _, List.mem_singleton_self _⟩
  obtain ⟨c, hrun, hpending, post, hpost⟩ := hrun
  obtain ⟨hnodup, -, harrive⟩ := posts_arrive (by decide +kernel) hrun
  refine ⟨c, hrun, hnodup, post, hpost, harrive (by decide +kernel) ?_ post _ hpost⟩
  rw [hpending]
  exact List.forall_mem_nil _

end Subtle.Feed
