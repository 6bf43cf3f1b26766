import Subtle.Feed.Loads
import Subtle.Lib.Positions

/-!
# Deleting posts from a list

`FeedVM.deletePost` and `ProfileVM.deletePost` look for the position of a post when the
deletion is requested, and remove what stands at this position when it completes.  The
completion is called with `true` after a failure as well, for want of a `return`, and the
write of a new post, which is in the list at once, has no completion at all.

* `feedList`: a list of posts with its deletions and writes.
* `removed_iff`: **throughout a run every completed deletion removes its post, exactly when
  every one finds it at the position that it was requested for, and only there**.
* `left_alone_iff`: **a run leaves the list as it was after each failure exactly when no
  deletion fails and each rejected post was taken out of the list before**.
-/

namespace Subtle.Feed

open Subtle.Firestore Subtle.Lib Subtle.Storage

namespace PostList

/-- The post that `addPost` writes and inserts. -/
def added (s : PostList) (post : Post) : List Post :=
  if s.currentUser = none ∨ post.id = none then [] else [post]

/-- The post that is added when no image is left to upload. -/
def finished (s : PostList) (urls : List URL) (post : Post) : List UIImage → List Post
  | _ :: _ => []
  | [] => s.added { post with pictures := urls }

/-- The post that a call adds. -/
def addedByCall (s : PostList) : Call → List Post
  | .addPostAndImages post images => if s.currentUser = none then [] else s.finished [] post images
  | _ => []

/-- The post that an answer adds. -/
def addedByAnswer (s : PostList) : Op → Reply → List Post
  | .upload _ rest urls post, .uploaded url => s.finished (urls ++ [url]) post rest
  | _, _ => []

end PostList

namespace FeedList

/-- A backend operation: one of the list, the write of a new post, or a deletion with the
position of its post. -/
inductive Op where
  | list (op : PostList.Op)
  | setData (post : Post)
  | delete (post : Post) (index : Nat)

inductive Reply where
  | list (r : PostList.Reply)
  | committed (ok : Bool)

inductive Call where
  | list (x : PostList.Call)
  | deletePost (post : Post)

/-- `FirestoreService.deletePost`. -/
def deleteDocument (s : PostList) (post : Post) (index : Nat) : List Op :=
  match s.currentUser, post.id with
  | some userId, some _ => if userId = post.posterId then [.delete post index] else []
  | _, _ => []

def deletePost (s : PostList) (post : Post) : List Op :=
  match s.posts.findIdx? fun q => q.id == post.id with
  | some index => deleteDocument s post index
  | none => []

/-- What `FirestoreService.deletePost` passes to its completion, in order. -/
def deleteCompletions (ok : Bool) : List Bool :=
  -- the branch of the error does not return
  (if ok then [] else [false]) ++ [true]

/-- `self.posts.remove(at: index)`, which does not return outside the list. -/
def removeAt (s : PostList) (index : Nat) : Option PostList :=
  if index < s.posts.length then some { s with posts := s.posts.eraseIdx index } else none

/-- The completion of `deletePost`. -/
def complete (index : Nat) (s : PostList) (success : Bool) : Option PostList :=
  if success then removeAt s index else some s

def call (s : PostList) : Call → Option (PostList × List Op)
  | .list x => (s.call x).map fun p => (p.1, p.2.map .list ++ (s.addedByCall x).map .setData)
  | .deletePost post => some (s, deletePost s post)

def answer (s : PostList) : Op → Reply → Option (PostList × List Op)
  | .list op, .list r =>
      (s.answer op r).map fun p => (p.1, p.2.map .list ++ (s.addedByAnswer op r).map .setData)
  -- nothing waits for the write of a post
  | .setData _, .committed _ => some (s, [])
  | .delete _ index, .committed ok =>
      ((deleteCompletions ok).foldlM (complete index) s).map fun s => (s, [])
  | _, _ => none

end FeedList

/-- A list of posts with its deletions. -/
def feedList : Service PostList FeedList.Call FeedList.Op FeedList.Reply :=
  ⟨FeedList.call, FeedList.answer⟩

namespace FeedList

variable {s s' : PostList} {post : Post} {index : Nat}

theorem answer_delete (s : PostList) (post : Post) (index : Nat) (ok : Bool) :
    answer s (.delete post index) (.committed ok) = (removeAt s index).map fun s => (s, []) := by
  cases ok with
  | true =>
    show (([true].foldlM (complete index) s).map _ : Option (PostList × List Op)) = _
    simp [complete]
  | false =>
    show (([false, true].foldlM (complete index) s).map _ : Option (PostList × List Op)) = _
    simp [complete]

/-! ### Deletions that complete -/

/-- A completed deletion removes the post, and nothing else, and does not index outside the
list. -/
def RemovesIt (s : PostList) : Op → Reply → Prop
  | .delete post index, .committed true =>
      ∃ s', answer s (.delete post index) (.committed true) = some (s', []) ∧
        s'.posts = s.posts.filter fun q => q.id ≠ post.id
  | _, _ => True

/-- The post of a deletion that completes stands at the position that it was requested for,
and only there. -/
def InPlace (s : PostList) : Op → Reply → Prop
  | .delete post index, .committed true =>
      index < s.posts.length ∧ ∀ k q, s.posts[k]? = some q → (q.id = post.id ↔ k = index)
  | _, _ => True

theorem inPlace_of_unchanged (hnodup : (s.posts.map Post.id).Nodup)
    (hindex : (s.posts.findIdx? fun q => q.id == post.id) = some index) :
    InPlace s (.delete post index) (.committed true) := by
  obtain ⟨hlt, hfound, -⟩ := List.findIdx?_eq_some_iff_getElem.mp hindex
  have hid : s.posts[index].id = post.id := by simpa using hfound
  refine ⟨hlt, ?_⟩
  intro k q hk
  constructor
  · intro hq
    have hsame : (s.posts.map Post.id)[k]? = (s.posts.map Post.id)[index]? := by
      rw [List.getElem?_map, List.getElem?_map, hk, List.getElem?_eq_getElem hlt, Option.map_some,
        Option.map_some, hq, hid]
    obtain ⟨hklt, -⟩ := List.getElem?_eq_some_iff.mp hk
    exact (List.getElem?_inj (by rwa [List.length_map]) hnodup).mp hsame
  · rintro rfl
    rw [List.getElem?_eq_getElem hlt] at hk
    exact Option.some.inj hk ▸ hid

theorem removesIt_iff (s : PostList) (op : Op) (r : Reply) : RemovesIt s op r ↔ InPlace s op r := by
  match op, r with
  | .delete post index, .committed true =>
    have hpass : ∀ q : Post, decide (q.id ≠ post.id) = false ↔ q.id = post.id := fun q => by simp
    constructor
    · rintro ⟨s', hanswer, hposts⟩
      rw [answer_delete] at hanswer
      obtain ⟨t, hremove, heq⟩ := Option.map_eq_some_iff.mp hanswer
      obtain ⟨rfl, -⟩ := Prod.mk.inj heq
      obtain ⟨hlt, rfl⟩ := Option.ite_some_none_eq_some.mp hremove
      have hall := (eraseIdx_eq_filter_iff hlt).mp hposts
      exact ⟨hlt, fun k q hk => (hpass q).symm.trans (hall k q hk)⟩
    · rintro ⟨hlt, hall⟩
      refine ⟨{ s with posts := s.posts.eraseIdx index }, ?_, ?_⟩
      · rw [answer_delete, removeAt, if_pos hlt]
        rfl
      · exact (eraseIdx_eq_filter_iff hlt).mpr fun k q hk => (hpass q).trans (hall k q hk)
  | .delete _ _, .committed false | .list _, _ | .setData _, _ | .delete _ _, .list _ =>
    exact Iff.rfl

/-- **Throughout a run every completed deletion removes its post and nothing else, exactly
when every one finds its post in place.** -/
theorem removed_iff (s : PostList) (es : List (Event Call Reply)) :
    feedList.machine.Along (Service.OnAnswer RemovesIt) ⟨s, []⟩ es ↔
      feedList.machine.Along (Service.OnAnswer InPlace) ⟨s, []⟩ es :=
  Machine.along_congr (J := fun _ => True) (fun _ _ _ _ _ => trivial)
    (fun _ e _ => Service.onAnswer_congr e (removesIt_iff _)) trivial

/-- Two of Bob's posts. -/
def twoPosts : PostList :=
  { PostList.start (some "bob") 100 with
    posts := [PostList.bobsPost, { PostList.bobsPost with id := some "q" }] }

/-- Both posts are deleted, and the second deletion indexes outside the list. -/
theorem removes_outside : ¬ ∀ (s : PostList) (es : List (Event Call Reply)),
    (s.posts.map Post.id).Nodup →
      feedList.machine.Along (Service.OnAnswer RemovesIt) ⟨s, []⟩ es := by
  intro h
  have hrun := h twoPosts [.call (.deletePost PostList.bobsPost),
    .call (.deletePost { PostList.bobsPost with id := some "q" }), .answer 0 (.committed true),
    .answer 0 (.committed true)] (by decide)
  obtain ⟨s', hanswer, -⟩ := (((hrun.2 _ rfl).2 _ rfl).2 _ rfl).1 _ rfl
  exact absurd hanswer (Option.some_ne_none _).symm

/-! ### Operations that fail -/

end FeedList

/-- What came into the list since it was last emptied, and what was taken out of it. -/
structure FeedLog where
  brought : List Post
  removed : List Post

namespace FeedLog

def noteCall (log : FeedLog) (s : PostList) : FeedList.Call → Option FeedLog
  | .list .loadPosts | .list (.loadFilteredPosts ..) | .list .loadMyPosts => some ⟨[], []⟩
  | .list x => some { log with brought := log.brought ++ s.addedByCall x }
  | .deletePost _ => some log

def noteAnswer (log : FeedLog) (s : PostList) : FeedList.Op → FeedList.Reply → Option FeedLog
  | .list (.getDocuments _ query), .list (.documents docs) =>
      some { log with brought := log.brought ++ (PostList.completion query docs).getD [] }
  | .list op, .list r => some { log with brought := log.brought ++ s.addedByAnswer op r }
  | .delete _ index, .committed _ =>
      some { log with removed := log.removed ++ (s.posts[index]?).toList }
  | _, _ => some log

/-- The list has what came into it and was not taken out. -/
def Accounts (log : FeedLog) (s : PostList) : Prop := (s.posts ++ log.removed).Perm log.brought

end FeedLog

/-- The list of posts with what came into it and was taken out. -/
def recordedFeed : Service (PostList × FeedLog) FeedList.Call FeedList.Op FeedList.Reply :=
  feedList.watched id id FeedLog.noteCall FeedLog.noteAnswer

def recordedFeed.start (s : PostList) : Config (PostList × FeedLog) FeedList.Op :=
  ⟨(s, ⟨s.posts, []⟩), []⟩

namespace FeedLog

variable {s s' : PostList} {log log' : FeedLog}

theorem accounts_start (s : PostList) : Accounts ⟨s.posts, []⟩ s := by
  rw [Accounts, List.append_nil]

theorem Accounts.bring (h : log.Accounts s) {posts : List Post}
    (hposts : s'.posts.Perm (s.posts ++ posts)) :
    Accounts { log with brought := log.brought ++ posts } s' := by
  have hswap : (s.posts ++ posts ++ log.removed).Perm (s.posts ++ log.removed ++ posts) := by
    rw [List.append_assoc, List.append_assoc]
    exact List.perm_append_comm.append_left _
  exact ((hposts.append_right _).trans hswap).trans (List.Perm.append_right _ h)

theorem Accounts.remove (h : log.Accounts s) {index : Nat}
    (hremove : FeedList.removeAt s index = some s') :
    Accounts { log with removed := log.removed ++ (s.posts[index]?).toList } s' := by
  obtain ⟨hlt, rfl⟩ := Option.ite_some_none_eq_some.mp hremove
  rw [List.getElem?_eq_getElem hlt, Option.toList_some]
  have hback : (s.posts.eraseIdx index ++ (log.removed ++ [s.posts[index]])).Perm
      (s.posts[index] :: s.posts.eraseIdx index ++ log.removed) := by
    rw [← List.append_assoc]
    exact List.perm_append_singleton _ _
  exact (hback.trans ((List.getElem_cons_eraseIdx_perm hlt).append_right _)).trans h

theorem posts_addPost (s : PostList) (post : Post) :
    (s.addPost post).posts = s.added post ++ s.posts := by
  unfold PostList.addPost PostList.added
  split <;> rfl

theorem posts_addImageHelper (s : PostList) (urls : List URL) (post : Post)
    (images : List UIImage) :
    (s.addImageHelper urls post images).1.posts = s.finished urls post images ++ s.posts := by
  cases images with
  | nil => exact posts_addPost s _
  | cons image rest => rfl

theorem posts_addPostAndImages {post : Post} {images : List UIImage} {ops : List PostList.Op}
    (hcall : s.call (.addPostAndImages post images) = some (s', ops)) :
    s'.posts = s.addedByCall (.addPostAndImages post images) ++ s.posts := by
  have hcall := Option.some.inj hcall
  show s'.posts = (if s.currentUser = none then [] else s.finished [] post images) ++ s.posts
  split at hcall
  · obtain ⟨rfl, -⟩ := Prod.mk.inj hcall
    rw [if_pos ‹_›, List.nil_append]
  · rw [if_neg ‹_›, ← posts_addImageHelper, hcall]

/-- A call of the list that is no load adds what `addPost` adds. -/
theorem accounts_call (h : log.Accounts s) {x : FeedList.Call} {new : List FeedList.Op}
    (hnote : log.noteCall s x = some log') (hcall : FeedList.call s x = some (s', new)) :
    log'.Accounts s' := by
  cases x with
  | deletePost post =>
    obtain rfl := Option.some.inj hnote
    obtain ⟨rfl, -⟩ := Prod.mk.inj (Option.some.inj hcall)
    exact h
  | list x =>
    obtain ⟨⟨t, ops⟩, hlist, heq⟩ := Option.map_eq_some_iff.mp hcall
    obtain ⟨rfl, -⟩ := Prod.mk.inj heq
    cases x with
    | setCurrentUser currentUser =>
      obtain rfl := Option.some.inj hnote
      obtain ⟨rfl, -⟩ := Prod.mk.inj (Option.some.inj hlist)
      exact h.bring (List.Perm.of_eq (List.append_nil _).symm)
    | loadPosts =>
      obtain rfl := Option.some.inj hnote
      obtain ⟨rfl, -⟩ := Prod.mk.inj (Option.some.inj hlist)
      exact List.Perm.refl _
    | loadFilteredPosts uniQuery minAge maxAge =>
      obtain rfl := Option.some.inj hnote
      obtain ⟨rfl, -⟩ := Prod.mk.inj (Option.some.inj hlist)
      exact List.Perm.refl _
    | loadMyPosts =>
      obtain rfl := Option.some.inj hnote
      obtain ⟨rfl, -⟩ := Prod.mk.inj (Option.some.inj hlist)
      exact List.Perm.refl _
    | addPostAndImages post images =>
      obtain rfl := Option.some.inj hnote
      refine h.bring ?_
      rw [posts_addPostAndImages hlist]
      exact List.perm_append_comm

theorem accounts_listAnswer (h : log.Accounts s) {op : PostList.Op} {r : PostList.Reply}
    {new : List PostList.Op} (hnote : log.noteAnswer s (.list op) (.list r) = some log')
    (hanswer : s.answer op r = some (s', new)) : log'.Accounts s' := by
  cases op with
  | getDocuments load query =>
    cases r with
    | documents docs =>
      obtain rfl := Option.some.inj hnote
      obtain ⟨-, hanswer⟩ := Option.ite_none_right_eq_some.mp hanswer
      obtain ⟨rfl, -⟩ := Prod.mk.inj (Option.some.inj hanswer)
      refine h.bring ?_
      cases PostList.completion query docs with
      | none => exact List.Perm.of_eq (List.append_nil _).symm
      | some posts => exact List.Perm.refl _
    | uploaded url => exact absurd hanswer (by simp [PostList.answer])
    | error =>
      obtain rfl := Option.some.inj hnote
      obtain ⟨rfl, -⟩ := Prod.mk.inj (Option.some.inj hanswer)
      exact h.bring (List.Perm.of_eq (List.append_nil _).symm)
  | upload image rest urls post =>
    cases r with
    | documents docs => exact absurd hanswer (by simp [PostList.answer])
    | uploaded url =>
      obtain rfl := Option.some.inj hnote
      refine h.bring ?_
      obtain rfl := congrArg Prod.fst (Option.some.inj hanswer)
      rw [posts_addImageHelper]
      exact List.perm_append_comm
    | error =>
      obtain rfl := Option.some.inj hnote
      obtain ⟨rfl, -⟩ := Prod.mk.inj (Option.some.inj hanswer)
      exact h.bring (List.Perm.of_eq (List.append_nil _).symm)

/-- **An answer brings what it delivers, or takes out what a deletion completes.** -/
theorem accounts_answer (h : log.Accounts s) {op : FeedList.Op} {r : FeedList.Reply}
    {new : List FeedList.Op} (hnote : log.noteAnswer s op r = some log')
    (hanswer : FeedList.answer s op r = some (s', new)) : log'.Accounts s' := by
  match op, r with
  | .list op, .list r =>
    obtain ⟨⟨t, ops⟩, hlist, heq⟩ := Option.map_eq_some_iff.mp hanswer
    obtain ⟨rfl, -⟩ := Prod.mk.inj heq
    exact accounts_listAnswer h hnote hlist
  | .setData post, .committed ok =>
    obtain rfl := Option.some.inj hnote
    obtain ⟨rfl, -⟩ := Prod.mk.inj (Option.some.inj hanswer)
    exact h
  | .delete post index, .committed ok =>
    obtain rfl := Option.some.inj hnote
    rw [FeedList.answer_delete] at hanswer
    obtain ⟨t, hremove, heq⟩ := Option.map_eq_some_iff.mp hanswer
    obtain ⟨rfl, -⟩ := Prod.mk.inj heq
    exact h.remove hremove
  | .list _, .committed _ | .setData _, .list _ | .delete _ _, .list _ =>
    exact absurd hanswer (Option.some_ne_none _).symm

theorem accounts_step {c c' : Config (PostList × FeedLog) FeedList.Op}
    {e : Event FeedList.Call FeedList.Reply} (h : c.core.2.Accounts c.core.1)
    (hstep : recordedFeed.machine.step c e = some c') : c'.core.2.Accounts c'.core.1 := by
  obtain ⟨⟨s, log⟩, ops⟩ := c
  rcases Service.step_cases hstep with ⟨x, ⟨s', log'⟩, new, rfl, hcall, rfl⟩ |
    ⟨pre, op, post, r, ⟨s', log'⟩, new, rfl, -, hanswer, rfl⟩
  · obtain ⟨hnote, hcall⟩ := Service.watched_call hcall
    exact accounts_call h hnote hcall
  · obtain ⟨hnote, hanswer⟩ := Service.watched_answer hanswer
    exact accounts_answer h hnote hanswer

/-- A post is gone from the list when it was taken out as often as it came in. -/
theorem Accounts.count_iff (h : log.Accounts s) (id : Option String) :
    id ∉ s.posts.map Post.id ↔
      (log.brought.map Post.id).count id = (log.removed.map Post.id).count id := by
  have hcount := (h.map Post.id).count_eq id
  rw [List.map_append, List.count_append] at hcount
  rw [← List.count_eq_zero]
  omega

end FeedLog

namespace FeedList

/-- After a failed deletion the completion was called once, with `false`, and the list is as
it was; after a rejected write the new post is not in the list. -/
def LeavesList (s : PostList) : Op → Reply → Prop
  | .delete post index, .committed false =>
      deleteCompletions false = [false] ∧
        answer s (.delete post index) (.committed false) = some (s, [])
  | .setData post, .committed false => ∀ s' new,
      answer s (.setData post) (.committed false) = some (s', new) → post.id ∉ s'.posts.map Post.id
  | _, _ => True

/-- No deletion fails, and a rejected post was taken out of the list as often as it came in
since the list was emptied. -/
def TakenOut (log : FeedLog) : Op → Reply → Prop
  | .delete _ _, .committed false => False
  | .setData post, .committed false =>
      (log.brought.map Post.id).count post.id = (log.removed.map Post.id).count post.id
  | _, _ => True

theorem leavesList_iff {s : PostList} {log : FeedLog} (h : log.Accounts s) (op : Op) (r : Reply) :
    LeavesList s op r ↔ TakenOut log op r := by
  match op, r with
  | .delete post index, .committed false =>
    refine iff_of_false ?_ id
    rintro ⟨honce, -⟩
    exact absurd honce (by decide)
  | .setData post, .committed false =>
    refine Iff.trans ?_ (h.count_iff post.id)
    constructor
    · exact fun hall => hall s [] rfl
    · intro hnot s' new hanswer
      obtain ⟨rfl, -⟩ := Prod.mk.inj (Option.some.inj hanswer)
      exact hnot
  | .delete _ _, .committed true | .list _, _ | .setData _, .committed true
  | .delete _ _, .list _ | .setData _, .list _ => exact Iff.rfl

/-- **A run leaves the list as it was after each failure exactly when no deletion fails and
each rejected post was taken out before**, whatever the list is at the start. -/
theorem left_alone_iff (s : PostList) (es : List (Event Call Reply)) :
    recordedFeed.machine.Along (Service.OnAnswer fun p op r => LeavesList p.1 op r)
        (recordedFeed.start s) es ↔
      recordedFeed.machine.Along (Service.OnAnswer fun p op r => TakenOut p.2 op r)
        (recordedFeed.start s) es :=
  Machine.along_congr (J := fun c => c.core.2.Accounts c.core.1)
    (fun _ _ _ h hstep => FeedLog.accounts_step h hstep)
    (fun _ e h => Service.onAnswer_congr e (leavesList_iff h)) (FeedLog.accounts_start s)

/-- A deletion fails; its completion is called twice and its post is removed. -/
theorem failure_removes : ¬ ∀ (s : PostList) (es : List (Event Call Reply)),
    recordedFeed.machine.Along (Service.OnAnswer fun p op r => LeavesList p.1 op r)
      (recordedFeed.start s) es := by
  intro h
  have hrun := h twoPosts [.call (.deletePost PostList.bobsPost), .answer 0 (.committed false)]
  obtain ⟨honce, -⟩ := (hrun.2 _ rfl).1 _ rfl
  exact absurd honce (by decide)

end FeedList

end Subtle.Feed
