import Subtle.Feed.System

/-!
# Likes and edits of one post

Likes are array unions and removes on the server, and a save of the edit form
writes only the fields of the form.  So the two never touch the same field, and the
copy of the post that a client decides by does not matter for what is stored.

* `likes_commitAll`: the likes after some writes, from the writes alone.
* `commitAll_of_ne`: any other field, from the edits alone.
* `likes_and_fields`: **in every run the likes of a created post are the users whose
  last committed like or unlike was a like, once each, and every other field is the
  one last written by a committed edit**.
-/

namespace Subtle.Feed

open Subtle.Firestore Subtle.Lib Subtle.Storage

namespace Change

/-- Whether a write likes or unlikes for a user. -/
def likeOf (u : String) : Change → Option Bool
  | like likerId => if likerId = u then some true else none
  | unlike unlikerId => if unlikerId = u then some false else none
  | edit _ => none

/-- The data that an edit writes. -/
def data : Change → Option Document
  | edit updateData => some updateData
  | _ => none

/-- The write leaves the likes to the array writes. -/
def Frames : Change → Prop
  | edit updateData => updateData "likes" = none
  | _ => True

end Change

/-- The document after some writes. -/
def commitAll (changes : List Change) (created : Document) : Document :=
  changes.foldl (fun document change => change.commit document) created

theorem commitAll_concat (changes : List Change) (change : Change) (created : Document) :
    commitAll (changes ++ [change]) created = change.commit (commitAll changes created) :=
  List.foldl_append

/-- The users who like a post, by its writes. -/
def likesOf (changes : List Change) : List String :=
  changes.foldl (fun likes change =>
    match change with
    | .like likerId => if likerId ∈ likes then likes else likes ++ [likerId]
    | .unlike unlikerId => likes.filter fun u => decide (u ≠ unlikerId)
    | .edit _ => likes) []

theorem likesOf_concat (changes : List Change) (change : Change) :
    likesOf (changes ++ [change]) =
      match change with
      | .like likerId => if likerId ∈ likesOf changes then likesOf changes
          else likesOf changes ++ [likerId]
      | .unlike unlikerId => (likesOf changes).filter fun u => decide (u ≠ unlikerId)
      | .edit _ => likesOf changes := by
  rw [likesOf, List.foldl_append]
  rfl

/-! ### The writes on one post -/

theorem likes_commitAll {changes : List Change} {created : Document}
    (hcreated : created "likes" = some (.strings [])) (hframes : ∀ c ∈ changes, c.Frames) :
    commitAll changes created "likes" = some (.strings (likesOf changes)) := by
  induction changes using List.reverseRecOn with
  | nil => exact hcreated
  | append_singleton changes change ih =>
    have hprev := ih fun c hc => hframes c (List.mem_append_left _ hc)
    have hlast : change.Frames := hframes change (by simp)
    rw [commitAll_concat, likesOf_concat]
    cases change with
    | edit updateData =>
      have hnone : updateData "likes" = none := hlast
      show (updateData "likes").or (commitAll changes created "likes") = _
      rw [hnone, Option.none_or, hprev]
    | like likerId =>
      show some (Value.arrayUnion (commitAll changes created "likes") _) = _
      rw [hprev, Value.arrayUnion_strings]
    | unlike unlikerId =>
      show some (Value.arrayRemove (commitAll changes created "likes") _) = _
      rw [hprev, Value.arrayRemove_strings]

theorem nodup_likesOf (changes : List Change) : (likesOf changes).Nodup := by
  induction changes using List.reverseRecOn with
  | nil => exact List.nodup_nil
  | append_singleton changes change ih =>
    rw [likesOf_concat]
    cases change with
    | edit updateData => exact ih
    | unlike unlikerId => exact ih.filter _
    | like likerId =>
      show (if likerId ∈ likesOf changes then likesOf changes
        else likesOf changes ++ [likerId]).Nodup
      by_cases hmem : likerId ∈ likesOf changes
      · rwa [if_pos hmem]
      · rw [if_neg hmem]
        exact List.nodup_append.mpr ⟨ih, List.nodup_singleton _, by
          intro a ha b hb
          obtain rfl := List.mem_singleton.mp hb
          exact fun heq => hmem (heq ▸ ha)⟩

/-- **A user likes a post exactly when the last of their writes is a like.** -/
theorem mem_likesOf (u : String) (changes : List Change) :
    u ∈ likesOf changes ↔ (changes.filterMap (Change.likeOf u)).getLast? = some true := by
  induction changes using List.reverseRecOn with
  | nil => simp [likesOf]
  | append_singleton changes change ih =>
    rw [likesOf_concat, List.filterMap_append]
    cases change with
    | edit updateData =>
      rw [show [Change.edit updateData].filterMap (Change.likeOf u) = [] from rfl, List.append_nil]
      exact ih
    | like likerId =>
      by_cases hu : likerId = u
      · subst hu
        rw [show [Change.like likerId].filterMap (Change.likeOf likerId) = [true] by
          simp [Change.likeOf], List.getLast?_concat]
        by_cases hmem : likerId ∈ likesOf changes
        · simp [hmem]
        · simp [hmem]
      · rw [show [Change.like likerId].filterMap (Change.likeOf u) = [] by
          simp [Change.likeOf, hu], List.append_nil, ← ih]
        by_cases hmem : likerId ∈ likesOf changes
        · simp [hmem]
        · simp [hmem, Ne.symm hu]
    | unlike unlikerId =>
      by_cases hu : unlikerId = u
      · subst hu
        rw [show [Change.unlike unlikerId].filterMap (Change.likeOf unlikerId) = [false] by
          simp [Change.likeOf], List.getLast?_concat]
        simp
      · rw [show [Change.unlike unlikerId].filterMap (Change.likeOf u) = [] by
          simp [Change.likeOf, hu], List.append_nil, ← ih]
        simp [Ne.symm hu]

/-- **No like or unlike changes another field**: its value is the last one that an edit
wrote. -/
theorem commitAll_of_ne {k : String} (hk : k ≠ "likes") (changes : List Change)
    (created : Document) : commitAll changes created k =
      (((changes.filterMap Change.data).filterMap fun data => data k).getLast?).or (created k) := by
  rw [← Record.overwriteAll_apply]
  induction changes using List.reverseRecOn with
  | nil => rfl
  | append_singleton changes change ih =>
    rw [commitAll_concat, List.filterMap_append]
    cases change with
    | edit updateData =>
      rw [show [Change.edit updateData].filterMap Change.data = [updateData] from rfl,
        Record.overwriteAll_concat]
      show (updateData k).or (commitAll changes created k) = _
      rw [ih]
      rfl
    | like likerId =>
      rw [show [Change.like likerId].filterMap Change.data = [] from rfl, List.append_nil, ← ih]
      exact assign_of_ne hk _ _
    | unlike unlikerId =>
      rw [show [Change.unlike unlikerId].filterMap Change.data = [] from rfl, List.append_nil, ← ih]
      exact assign_of_ne hk _ _

/-! ### Whole runs -/

/-- A new post has no likes, and no save writes them. -/
def After.Frames : After → Prop
  | addPost _ post => post.likes = []
  | modifyPost _ editParams _ => editParams "likes" = none

def Op.Frames : Op → Prop
  | upload _ _ _ after => after.Frames
  | setData _ post => post.likes = []
  | updateData _ _ change => change.Frames
  | _ => True

/-- The stored posts are those of the writes committed to them. -/
structure Replayed (s : App) (ops : List Op) : Prop where
  frames : ∀ op ∈ ops, op.Frames
  history : ∀ id created changes, s.history id = some (created, changes) →
    created "likes" = some (.strings []) ∧ (∀ change ∈ changes, change.Frames) ∧
      s.posts id = some (commitAll changes created)

variable {s s' : App} {ops new pre post : List Op} {op : Op}

theorem frames_withPictures {params : Document} (h : params "likes" = none) (urls : List URL) :
    (Change.edit (PostVM.withPictures params urls)).Frames :=
  PostVM.withPictures_of_not_editable (by decide) h urls

theorem frames_addImageHelper {after : After} (hafter : after.Frames) {urls : List URL}
    {images : List UIImage} (h : op ∈ s.addImageHelper urls after images) : op.Frames := by
  cases images with
  | cons image rest =>
    obtain rfl := List.mem_singleton.mp h
    exact hafter
  | nil =>
    cases after with
    | addPost currentUser p =>
      obtain ⟨id, rfl⟩ := mem_addPost h
      exact hafter
    | modifyPost i params newImages =>
      simp only [App.addImageHelper, App.uploaded] at h
      split at h
      · obtain ⟨id, rfl⟩ := mem_modifyPost h
        exact frames_withPictures hafter _
      · exact absurd h List.not_mem_nil

theorem frames_addImages {after : After} (hafter : after.Frames) {currentUser : Option String}
    {images : List UIImage} (h : op ∈ s.addImages currentUser images after) : op.Frames := by
  unfold App.addImages at h
  split at h
  · exact frames_addImageHelper hafter h
  · exact absurd h List.not_mem_nil

theorem frames_editPostAndImages {i : Nat} {vm : PostVM} (h : op ∈ editPostAndImages s i vm) :
    op.Frames := by
  have hparams : vm.editParams "likes" = none := PostVM.editParams_of_not_editable (by decide) vm
  unfold editPostAndImages at h
  split at h
  · refine frames_addImages ?_ h
    exact hparams
  · rcases List.mem_append.mp h with h | h
    · obtain ⟨id, rfl⟩ := mem_modifyPost h
      exact frames_withPictures hparams _
    · obtain ⟨index, rfl⟩ := mem_startDeletion h
      trivial

/-- A call leaves the stored posts alone and issues framed operations. -/
theorem call_frames {x : Call} (h : Called s x s' new) :
    s'.posts = s.posts ∧ s'.history = s.history ∧ ∀ op ∈ new, op.Frames := by
  have hnone : ∀ op ∈ ([] : List Op), op.Frames := List.forall_mem_nil _
  cases h with
  | submitted currentUser form images id creationDate p hp =>
    refine ⟨rfl, rfl, ?_⟩
    intro op hop
    obtain ⟨userId, -, rfl⟩ := Option.map_eq_some_iff.mp hp
    refine frames_addImages ?_ hop
    rfl
  | opened => exact ⟨rfl, rfl, hnone⟩
  | filled => exact ⟨rfl, rfl, hnone⟩
  | imageAdded => exact ⟨rfl, rfl, hnone⟩
  | toggled => exact ⟨rfl, rfl, hnone⟩
  | imagesDeleted => exact ⟨rfl, rfl, hnone⟩
  | saved i vm hvm hshows => exact ⟨rfl, rfl, fun op hop => frames_editPostAndImages hop⟩
  | liked i vm =>
    refine ⟨rfl, rfl, ?_⟩
    intro op hop
    obtain ⟨id, user, rfl⟩ := mem_likePost hop
    trivial
  | unliked i vm =>
    refine ⟨rfl, rfl, ?_⟩
    intro op hop
    obtain ⟨id, user, rfl⟩ := mem_unlikePost hop
    trivial
  | postDeleted i vm =>
    refine ⟨rfl, rfl, ?_⟩
    intro op hop
    obtain ⟨id, rfl⟩ := mem_deletePost hop
    trivial

/-- An answer that writes no post. -/
theorem Replayed.of_eq (h : Replayed s (pre ++ op :: post)) (hposts : s'.posts = s.posts)
    (hhistory : s'.history = s.history) (hnew : ∀ op ∈ new, op.Frames) :
    Replayed s' (pre ++ post ++ new) := by
  refine ⟨?_, ?_⟩
  · intro op' hop'
    rcases List.mem_append.mp hop' with hop' | hop'
    · exact h.frames op' (Service.mem_pending_iff.mpr (Or.inr hop'))
    · exact hnew op' hop'
  · rw [hposts, hhistory]
    exact h.history

/-- The post and its record change together. -/
theorem Replayed.of_update (h : Replayed s (pre ++ op :: post)) {id : String}
    {document : Option Document} {record : Option (Document × List Change)}
    (hrecord : ∀ created changes, record = some (created, changes) →
      created "likes" = some (.strings []) ∧ (∀ change ∈ changes, change.Frames) ∧
        document = some (commitAll changes created)) (hnew : ∀ op ∈ new, op.Frames) :
    Replayed { s with
        posts := Function.update s.posts id document
        history := Function.update s.history id record } (pre ++ post ++ new) := by
  refine ⟨(h.of_eq rfl rfl hnew).frames, ?_⟩
  intro id' created changes hid'
  by_cases hid : id' = id
  · subst hid
    simp only [Function.update_self] at hid' ⊢
    exact hrecord created changes hid'
  · simp only [Function.update_of_ne hid] at hid' ⊢
    exact h.history id' created changes hid'

theorem replayed_answer (h : Replayed s (pre ++ op :: post)) {r : Reply}
    (hanswer : Answered s op r s' new) : Replayed s' (pre ++ post ++ new) := by
  have hop : op.Frames := h.frames op (by simp)
  have hnone : ∀ op ∈ ([] : List Op), op.Frames := List.forall_mem_nil _
  cases hanswer with
  | failed => exact h.of_eq rfl rfl hnone
  | uploaded image rest urls after url hfresh =>
    exact h.of_eq rfl rfl fun op hmem => frames_addImageHelper hop hmem
  | created id p =>
    refine h.of_update ?_ hnone
    intro created changes heq
    obtain ⟨rfl, rfl⟩ := Prod.mk.inj (Option.some.inj heq)
    have hlikes : p.likes = [] := hop
    refine ⟨?_, by simp, rfl⟩
    show some (Value.strings p.likes) = _
    rw [hlikes]
  | updated i id change document hdoc =>
    refine h.of_update ?_ (by simp [Op.Frames])
    intro created changes' heq
    obtain ⟨⟨created', changes⟩, hrecord, hpair⟩ := Option.map_eq_some_iff.mp heq
    obtain ⟨rfl, rfl⟩ := Prod.mk.inj hpair
    obtain ⟨hlikes, hframes, hpost⟩ := h.history id created' changes hrecord
    refine ⟨hlikes, ?_, ?_⟩
    · intro c hc
      rcases List.mem_append.mp hc with hc | hc
      · exact hframes c hc
      · obtain rfl := List.mem_singleton.mp hc
        exact hop
    · rw [commitAll_concat, Option.some.inj (hdoc.symm.trans hpost)]
  | missing i id => exact h.of_eq rfl rfl hnone
  | read i id p => exact h.of_eq rfl rfl (by simp [Op.Frames])
  | delivered i p => exact h.of_eq rfl rfl hnone
  | removed urls index =>
    refine h.of_eq rfl rfl ?_
    intro op hmem
    rw [mem_nextDeletion hmem]
    trivial
  | kept urls index =>
    refine h.of_eq rfl rfl ?_
    intro op hmem
    rw [mem_nextDeletion hmem]
    trivial
  | deleted id =>
    refine h.of_update ?_ hnone
    intro created changes heq
    exact absurd heq (Option.some_ne_none _).symm

theorem replayed_run {posts : String → Option Document} {objects : Finset URL}
    {es : List (Event Call Reply)} {d : Config App Op}
    (h : app.machine.run ⟨App.start posts objects, []⟩ es = some d) :
    Replayed d.core d.pending := by
  refine Service.run_inv_of_step (I := Replayed) ?_ ?_ ?_ h
  · intro s ops x s' new hI hcall
    obtain ⟨hposts, hhistory, hnew⟩ := call_frames (called_of_call hcall)
    refine ⟨?_, ?_⟩
    · intro op hop
      exact (List.mem_append.mp hop).elim (hI.frames op) (hnew op)
    · rw [hposts, hhistory]
      exact hI.history
  · intro s pre op post r s' new hI hanswer
    exact replayed_answer hI (answered_of_answer hanswer)
  · refine ⟨List.forall_mem_nil _, ?_⟩
    intro id created changes hid
    exact absurd hid (Option.some_ne_none _).symm

/-- **The likes of a created post are the users whose last committed like or unlike was
a like, once each, and every other field is the one last written by an edit.** -/
theorem likes_and_fields {posts : String → Option Document} {objects : Finset URL}
    {es : List (Event Call Reply)} {d : Config App Op} {id : String}
    {document created : Document} {changes : List Change}
    (h : app.machine.run ⟨App.start posts objects, []⟩ es = some d)
    (hpost : d.core.posts id = some document)
    (hhistory : d.core.history id = some (created, changes)) :
    (∃ likes, document "likes" = some (.strings likes) ∧ likes.Nodup ∧
      ∀ u, u ∈ likes ↔ (changes.filterMap (Change.likeOf u)).getLast? = some true) ∧
    ∀ k, k ≠ "likes" → document k =
      (((changes.filterMap Change.data).filterMap fun data => data k).getLast?).or (created k) := by
  obtain ⟨hcreated, hframes, hreplay⟩ := (replayed_run h).history id created changes hhistory
  obtain rfl := Option.some.inj (hreplay.symm.trans hpost)
  refine ⟨⟨likesOf changes, likes_commitAll hcreated hframes, nodup_likesOf changes,
    fun u => mem_likesOf u changes⟩, ?_⟩
  intro k hk
  exact commitAll_of_ne hk changes created

/-- Ann posts and renames her friend, Bob and Ann like the post, and Bob takes his like back. -/
def postedAndLiked : List (Event Call Reply) :=
  [.call (.submit (some "ann") ⟨"Beth", 0, "Duke University", "Durham", "Tall", []⟩ [] "p" 0),
    .answer 0 .ok, .call (.openPost (some "bob") "p"), .call (.openPost (some "ann") "p"),
    .call (.like 0), .call (.fill 1 ⟨"Bethany", 0, "Duke University", "Durham", "Tall", []⟩),
    .call (.save 1), .call (.like 1), .answer 1 .ok, .answer 0 .ok, .answer 0 .ok,
    -- Bob's view shows his like
    .answer 1 .ok, .answer 2 .ok, .call (.unlike 0), .answer 2 .ok]

theorem likes_and_fields_example : ∃ d document,
    app.machine.run ⟨App.start (fun _ => none) ∅, []⟩ postedAndLiked = some d ∧
      d.core.posts "p" = some document ∧ document "name" = some (.string "Bethany") ∧
        ∃ likes, document "likes" = some (.strings likes) ∧ "ann" ∈ likes ∧ "bob" ∉ likes := by
  have hrun : ∃ d document created name changes,
      app.machine.run ⟨App.start (fun _ => none) ∅, []⟩ postedAndLiked = some d ∧
        d.core.posts "p" = some document ∧
        d.core.history "p" = some (created, .edit name :: changes) ∧
        name "name" = some (.string "Bethany") ∧
        changes = [.like "bob", .like "ann", .unlike "bob"] :=
    ⟨_, _, _, _, _, rfl, rfl, rfl, rfl, rfl⟩
  obtain ⟨d, document, created, name, changes, hrun, hpost, hhistory, hname, rfl⟩ := hrun
  obtain ⟨⟨likes, hlikes, -, hmem⟩, hfields⟩ := likes_and_fields hrun hpost hhistory
  refine ⟨d, document, hrun, hpost, ?_, likes, hlikes, (hmem "ann").mpr rfl, fun hbob => ?_⟩
  · have hdata : [Change.edit name, .like "bob", .like "ann", .unlike "bob"].filterMap
        Change.data = [name] := rfl
    rw [hfields "name" (by decide), hdata]
    simp [hname]
  · have hlast : [Change.edit name, .like "bob", .like "ann", .unlike "bob"].filterMap
        (Change.likeOf "bob") = [true, false] := rfl
    have hbob := (hmem "bob").mp hbob
    rw [hlast] at hbob
    exact absurd hbob (by decide)

end Subtle.Feed
