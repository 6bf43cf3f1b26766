import Subtle.Feed.Post
import Subtle.Lib.Machine

/-!
# Loading the posts of a list

`FeedVM` and `ProfileVM` keep a list of posts.  A load empties it at once and appends
its result when the result arrives, whatever has been loaded since.
`addPostAndImages` inserts a new post at the front once its images are uploaded.

* `postList`: the service of such a list, with the load issued last and what it has
  returned, and the posts inserted since.
* `unmixed_iff`: **the list has no post twice and none of an earlier load, throughout
  a run, exactly when every result of the run is delivered in time**.
-/

namespace Subtle.Feed

open Subtle.Firestore Subtle.Lib Subtle.Storage

/-- A query for posts. -/
inductive PostQuery where
  | newest (number : Nat)
  | filtered (number : Nat) (uniQuery : String) (minAge maxAge : Nat)
  | mine (posterId : String)
  deriving DecidableEq

namespace PostList

/-- A backend operation, with what its handler needs. -/
inductive Op where
  | getDocuments (load : Nat) (query : PostQuery)
  | upload (image : UIImage) (rest : List UIImage) (urls : List URL) (post : Post)

inductive Reply where
  | documents (docs : List (String × Document))
  | uploaded (url : URL)
  | error

/-- `FeedVM` loads the newest or the filtered posts and adds posts; `ProfileVM` loads
those of its user. -/
inductive Call where
  | setCurrentUser (currentUser : Option String)
  | loadPosts
  | loadFilteredPosts (uniQuery : String) (minAge maxAge : Nat)
  | loadMyPosts
  | addPostAndImages (post : Post) (images : List UIImage)

end PostList

/-- No view model reads the last three: the number of loads so far, what the last of
them has returned, and what has been inserted since it was issued. -/
structure PostList where
  currentUser : Option String
  loadAmount : Nat
  posts : List Post
  issued : Nat
  returned : List Post
  inserted : List Post

namespace PostList

def start (currentUser : Option String) (loadAmount : Nat) : PostList :=
  ⟨currentUser, loadAmount, [], 0, [], []⟩

/-- `self.posts = []`, as a new load. -/
def clear (s : PostList) : PostList :=
  { s with posts := [], issued := s.issued + 1, returned := [], inserted := [] }

/-- The list is emptied, and the query sent for a current user. -/
def load (s : PostList) (query : String → PostQuery) : PostList × List Op :=
  (s.clear, s.currentUser.elim [] fun id => [.getDocuments s.clear.issued (query id)])

/-- `self.posts.append(contentsOf: posts)`, in the completion of a load. -/
def append (s : PostList) (load : Nat) (posts : List Post) : PostList :=
  { s with
    posts := s.posts ++ posts
    returned := if load = s.issued then s.returned ++ posts else s.returned }

/-- What the completion of a query is given, if it is called. -/
def completion : PostQuery → List (String × Document) → Option (List Post)
  | .mine _, [] => none
  | _, docs => some (docs.filterMap fun d => Post.decode d.1 d.2)

/-- `FirestoreService.addPost`, whose completion inserts the post. -/
def addPost (s : PostList) (post : Post) : PostList :=
  if s.currentUser = none ∨ post.id = none then s
  else { s with posts := post :: s.posts, inserted := post :: s.inserted }

/-- Upload the first of the images, or add the post. -/
def addImageHelper (s : PostList) (urls : List URL) (post : Post) :
    List UIImage → PostList × List Op
  | image :: rest => (s, [.upload image rest urls post])
  | [] => (s.addPost { post with pictures := urls }, [])

def call (s : PostList) : Call → Option (PostList × List Op)
  | .setCurrentUser currentUser => some ({ s with currentUser }, [])
  | .loadPosts => some (s.load fun _ => .newest s.loadAmount)
  | .loadFilteredPosts uniQuery minAge maxAge =>
      some (s.load fun _ => .filtered s.loadAmount uniQuery minAge maxAge)
  | .loadMyPosts => some (s.load fun id => .mine id)
  | .addPostAndImages post images =>
      some (if s.currentUser = none then (s, []) else s.addImageHelper [] post images)

def answer (s : PostList) : Op → Reply → Option (PostList × List Op)
  | .getDocuments load query, .documents docs =>
      -- the documents of a result have different ids
      if (docs.map Prod.fst).Nodup then
        some ((completion query docs).elim s (s.append load), [])
      else none
  | .upload _ rest urls post, .uploaded url => some (s.addImageHelper (urls ++ [url]) post rest)
  | .getDocuments .., .error | .upload .., .error => some (s, [])
  | _, _ => none

end PostList

def postList : Service PostList PostList.Call PostList.Op PostList.Reply :=
  ⟨PostList.call, PostList.answer⟩

namespace PostList

/-! ### Lists that are not mixed -/

/-- No post is in the list twice, and each is of the last load or inserted since. -/
structure Unmixed (s : PostList) : Prop where
  nodup : (s.posts.map Post.id).Nodup
  origin : ∀ p ∈ s.posts, p ∈ s.returned ∨ p ∈ s.inserted

/-- A post that is added is not shown yet. -/
def New (s : PostList) (post : Post) : Prop :=
  s.currentUser ≠ none → post.id ≠ none → post.id ∉ s.posts.map Post.id

instance (s : PostList) (post : Post) : Decidable (s.New post) :=
  inferInstanceAs (Decidable (_ → _ → _))

/-- A call that adds a post at once adds a new one. -/
def CallInTime (s : PostList) : Call → Prop
  | .addPostAndImages post images => images = [] → s.New post
  | _ => True

instance (s : PostList) (x : Call) : Decidable (s.CallInTime x) :=
  match x with
  | .addPostAndImages _ _ => inferInstanceAs (Decidable (_ → _))
  | .setCurrentUser _ | .loadPosts | .loadFilteredPosts .. | .loadMyPosts => isTrue trivial

/-- A load delivers posts only while it is the last one, and none that is shown. -/
def AnswerInTime (s : PostList) : Op → Reply → Prop
  | .getDocuments load query, .documents docs =>
      ∀ p ∈ (completion query docs).getD [], load = s.issued ∧ p.id ∉ s.posts.map Post.id
  | .upload _ rest _ post, .uploaded _ => rest = [] → s.New post
  | _, _ => True

instance (s : PostList) (op : Op) (r : Reply) : Decidable (s.AnswerInTime op r) :=
  match op, r with
  | .getDocuments _ _, .documents _ => inferInstanceAs (Decidable (∀ p ∈ _, _))
  | .upload .., .uploaded _ => inferInstanceAs (Decidable (_ → _))
  | .getDocuments .., .uploaded _ | .getDocuments .., .error | .upload .., .documents _
  | .upload .., .error => isTrue trivial

/-- What the last load has returned and what has been inserted since is shown. -/
def Shown (s : PostList) : Prop := ∀ p, p ∈ s.returned ∨ p ∈ s.inserted → p ∈ s.posts

theorem unmixed_clear (s : PostList) : s.clear.Unmixed := ⟨List.nodup_nil, fun _ h => Or.inl h⟩

theorem shown_clear (s : PostList) : s.clear.Shown := fun _ h => h.elim id id

theorem shown_addPost {s : PostList} (hs : s.Shown) (post : Post) : (s.addPost post).Shown := by
  unfold addPost
  split
  · exact hs
  · rintro p (hp | hp)
    · exact List.mem_cons_of_mem _ (hs p (Or.inl hp))
    · rcases List.mem_cons.mp hp with rfl | hp
      · exact List.mem_cons_self
      · exact List.mem_cons_of_mem _ (hs p (Or.inr hp))

theorem unmixed_addPost {s : PostList} (hs : s.Unmixed) (post : Post) :
    (s.addPost post).Unmixed ↔ s.New post := by
  by_cases hskip : s.currentUser = none ∨ post.id = none
  · rw [addPost, if_pos hskip]
    refine iff_of_true hs fun huser hid => ?_
    exact absurd hskip (not_or.mpr ⟨huser, hid⟩)
  · rw [addPost, if_neg hskip]
    obtain ⟨huser, hid⟩ := not_or.mp hskip
    constructor
    · intro h _ _
      exact (List.nodup_cons.mp h.nodup).1
    · intro hnew
      refine ⟨List.nodup_cons.mpr ⟨hnew huser hid, hs.nodup⟩, ?_⟩
      intro p hp
      rcases List.mem_cons.mp hp with rfl | hp
      · exact Or.inr List.mem_cons_self
      · exact (hs.origin p hp).imp_right (List.mem_cons_of_mem _)

theorem shown_append {s : PostList} (hs : s.Shown) (load : Nat) (posts : List Post) :
    (s.append load posts).Shown := by
  rintro p (hp | hp)
  · simp only [append] at hp ⊢
    split at hp
    · rcases List.mem_append.mp hp with hp | hp
      · exact List.mem_append_left _ (hs p (Or.inl hp))
      · exact List.mem_append_right _ hp
    · exact List.mem_append_left _ (hs p (Or.inl hp))
  · exact List.mem_append_left _ (hs p (Or.inr hp))

/-- **What the completion of a load does**: only the last load may deliver posts. -/
theorem unmixed_append {s : PostList} (hs : s.Unmixed) (hshown : s.Shown) (load : Nat)
    {posts : List Post} (hposts : (posts.map Post.id).Nodup) :
    (s.append load posts).Unmixed ↔
      ∀ p ∈ posts, load = s.issued ∧ p.id ∉ s.posts.map Post.id := by
  constructor
  · intro h p hp
    have hnodup := h.nodup
    rw [append, List.map_append, List.nodup_append'] at hnodup
    have hnot : p.id ∉ s.posts.map Post.id := fun hin =>
      hnodup.2.2 hin (List.mem_map_of_mem hp)
    refine ⟨?_, hnot⟩
    by_contra hne
    have horigin := h.origin p (List.mem_append_right _ hp)
    rw [append, if_neg hne] at horigin
    exact hnot (List.mem_map_of_mem (hshown p horigin))
  · intro h
    constructor
    case nodup =>
      rw [append, List.map_append]
      refine List.nodup_append'.mpr ⟨hs.nodup, hposts, ?_⟩
      intro id hid hin
      obtain ⟨p, hp, rfl⟩ := List.mem_map.mp hin
      exact (h p hp).2 hid
    case origin =>
      intro p hp
      rcases List.mem_append.mp hp with hold | hnew
      · refine (hs.origin p hold).imp_left fun hret => ?_
        simp only [append]
        split
        · exact List.mem_append_left _ hret
        · exact hret
      · left
        rw [append, if_pos (h p hnew).1]
        exact List.mem_append_right _ hnew

/-- The posts of a result have different ids. -/
theorem nodup_completion (query : PostQuery) {docs : List (String × Document)}
    (hdocs : (docs.map Prod.fst).Nodup) :
    (((completion query docs).getD []).map Post.id).Nodup := by
  have hdecoded : ((docs.filterMap fun d => Post.decode d.1 d.2).map Post.id).Nodup := by
    rw [List.Nodup, List.pairwise_map, List.pairwise_filterMap]
    refine (List.pairwise_map.mp hdocs).imp ?_
    intro d e hne p hp q hq heq
    rw [id_of_decode hp, id_of_decode hq] at heq
    exact hne (Option.some.inj heq)
  unfold completion
  split
  · exact List.nodup_nil
  · exact hdecoded

/-! ### Steps -/

theorem shown_addImageHelper {s : PostList} (hs : s.Shown) (urls : List URL) (post : Post)
    (images : List UIImage) : (s.addImageHelper urls post images).1.Shown := by
  cases images with
  | nil => exact shown_addPost hs _
  | cons image rest => exact hs

theorem shown_call {s s' : PostList} {x : Call} {new : List Op} (hs : s.Shown)
    (h : s.call x = some (s', new)) : s'.Shown := by
  obtain rfl : ((s.call x).map Prod.fst).getD s = s' := by rw [h]; rfl
  cases x with
  | setCurrentUser currentUser => exact hs
  | loadPosts => exact shown_clear s
  | loadFilteredPosts uniQuery minAge maxAge => exact shown_clear s
  | loadMyPosts => exact shown_clear s
  | addPostAndImages post images =>
    show (if s.currentUser = none then (s, []) else s.addImageHelper [] post images).1.Shown
    split
    · exact hs
    · exact shown_addImageHelper hs [] post images

theorem unmixed_call {s s' : PostList} {x : Call} {new : List Op} (hs : s.Unmixed)
    (h : s.call x = some (s', new)) : s'.Unmixed ↔ s.CallInTime x := by
  obtain rfl : ((s.call x).map Prod.fst).getD s = s' := by rw [h]; rfl
  cases x with
  | setCurrentUser currentUser => exact iff_of_true ⟨hs.nodup, hs.origin⟩ trivial
  | loadPosts => exact iff_of_true (unmixed_clear s) trivial
  | loadFilteredPosts uniQuery minAge maxAge => exact iff_of_true (unmixed_clear s) trivial
  | loadMyPosts => exact iff_of_true (unmixed_clear s) trivial
  | addPostAndImages post images =>
    show (if s.currentUser = none then (s, []) else s.addImageHelper [] post images).1.Unmixed ↔ _
    cases images with
    | cons image rest => split <;> exact iff_of_true hs nofun
    | nil =>
      split
      · exact iff_of_true hs fun _ huser => absurd ‹_› huser
      · exact (unmixed_addPost hs _).trans ⟨fun h _ => h, fun h => h rfl⟩

/-- **An answer and what it leads to.** -/
inductive Answered (s : PostList) : Op → Reply → PostList → Prop where
  | failed (op : Op) : Answered s op .error s
  | uncalled (load : Nat) (query : PostQuery) (docs : List (String × Document))
      (hnone : completion query docs = none) :
      Answered s (.getDocuments load query) (.documents docs) s
  | loaded (load : Nat) (query : PostQuery) (docs : List (String × Document))
      (posts : List Post) (hposts : completion query docs = some posts)
      (hnodup : (posts.map Post.id).Nodup) :
      Answered s (.getDocuments load query) (.documents docs) (s.append load posts)
  | uploaded (image : UIImage) (rest : List UIImage) (urls : List URL) (post : Post) (url : URL) :
      Answered s (.upload image rest urls post) (.uploaded url)
        (s.addImageHelper (urls ++ [url]) post rest).1

theorem answered_of_answer {s s' : PostList} {op : Op} {r : Reply} {new : List Op}
    (h : s.answer op r = some (s', new)) : Answered s op r s' := by
  cases op with
  | getDocuments load query =>
    cases r with
    | documents docs =>
      obtain ⟨hdocs, heq⟩ := Option.ite_none_right_eq_some.mp h
      obtain ⟨rfl, -⟩ := Prod.mk.inj (Option.some.inj heq)
      cases hposts : completion query docs with
      | none => exact .uncalled load query docs hposts
      | some posts =>
        have hnodup := nodup_completion query hdocs
        rw [hposts] at hnodup
        exact .loaded load query docs posts hposts hnodup
    | uploaded url => exact absurd h (by simp [answer])
    | error =>
      obtain ⟨rfl, -⟩ := Prod.mk.inj (Option.some.inj h)
      exact .failed _
  | upload image rest urls post =>
    cases r with
    | documents docs => exact absurd h (by simp [answer])
    | uploaded url =>
      obtain ⟨rfl, -⟩ := Prod.mk.inj (Option.some.inj h)
      exact .uploaded image rest urls post url
    | error =>
      obtain ⟨rfl, -⟩ := Prod.mk.inj (Option.some.inj h)
      exact .failed _

theorem shown_answer {s s' : PostList} {op : Op} {r : Reply} (hs : s.Shown)
    (h : Answered s op r s') : s'.Shown := by
  cases h with
  | failed op => exact hs
  | uncalled load query docs hnone => exact hs
  | loaded load query docs posts hposts hnodup => exact shown_append hs load posts
  | uploaded image rest urls post url => exact shown_addImageHelper hs _ post rest

theorem unmixed_answer {s s' : PostList} {op : Op} {r : Reply} (hs : s.Unmixed)
    (hshown : s.Shown) (h : Answered s op r s') : s'.Unmixed ↔ s.AnswerInTime op r := by
  cases h with
  | failed op => exact iff_of_true hs (by cases op <;> trivial)
  | uncalled load query docs hnone =>
    refine iff_of_true hs ?_
    intro p hp
    rw [hnone] at hp
    exact absurd hp List.not_mem_nil
  | loaded load query docs posts hposts hnodup =>
    rw [unmixed_append hs hshown load hnodup, AnswerInTime, hposts, Option.getD_some]
  | uploaded image rest urls post url =>
    cases rest with
    | nil => exact (unmixed_addPost hs _).trans ⟨fun h _ => h, fun h => h rfl⟩
    | cons image' rest => exact iff_of_true hs nofun

theorem shown_step {c c' : Config PostList Op} {e : Event Call Reply} (hc : c.core.Shown)
    (h : postList.step c e = some c') : c'.core.Shown := by
  rcases Service.step_cases h with ⟨x, s', new, rfl, hcall, rfl⟩ |
    ⟨pre, op, post, r, s', new, rfl, -, hanswer, rfl⟩
  · exact shown_call hc hcall
  · exact shown_answer hc (answered_of_answer hanswer)

theorem unmixed_step {c c' : Config PostList Op} {e : Event Call Reply} (hc : c.core.Unmixed)
    (hshown : c.core.Shown) (h : postList.step c e = some c') :
    c'.core.Unmixed ↔ Service.OnStep CallInTime AnswerInTime c e := by
  obtain ⟨s, ops⟩ := c
  rcases Service.step_cases h with ⟨x, s', new, rfl, hcall, rfl⟩ |
    ⟨pre, op, post, r, s', new, rfl, hpending, hanswer, rfl⟩
  · exact unmixed_call hc hcall
  · subst hpending
    exact (unmixed_answer hc hshown (answered_of_answer hanswer)).trans Service.onStep_answer.symm

/-- **The list has no post twice and none of an earlier load, throughout a run, exactly
when every result of the run is delivered in time.** -/
theorem unmixed_iff {currentUser : Option String} {loadAmount : Nat} {c : Config PostList Op}
    {es : List (Event Call Reply)}
    (hrun : postList.machine.run ⟨start currentUser loadAmount, []⟩ es = some c) :
    postList.machine.Always (fun c => c.core.Unmixed) ⟨start currentUser loadAmount, []⟩ es ↔
      postList.machine.Along (Service.OnStep CallInTime AnswerInTime)
        ⟨start currentUser loadAmount, []⟩ es :=
  Machine.always_iff (J := fun c => c.core.Shown) (fun _ _ _ hs hstep => shown_step hs hstep)
    (fun _ _ _ hshown hs hstep => unmixed_step hs hshown hstep) (fun _ h => h.elim id id)
    ⟨List.nodup_nil, fun _ h => Or.inl h⟩ hrun

/-! ### A reload -/

def bobsPost : Post where
  id := some "p"
  posterId := "bob"
  name := "Carl"
  university := "Duke University"
  location := "Durham"
  birthday := 0
  text := "hi"
  likes := []
  tags := []
  taggedUserIds := []
  pictures := ["u"]
  childCommentIds := []
  creationDate := 1

/-- The feed is loaded, a post is added to it, and it is loaded again. -/
def loadAddLoad : List (Event Call Reply) :=
  [.call .loadPosts, .answer 0 (.documents [("p", bobsPost.encode)]),
    .call (.addPostAndImages { bobsPost with id := some "q" } ["image"]),
    .answer 0 (.uploaded "v"), .call (.loadFilteredPosts "" 18 30), .call .loadPosts,
    .answer 0 (.documents []), .answer 0 (.documents [("p", bobsPost.encode)])]

theorem unmixed_iff_example : postList.machine.Always (fun c => c.core.Unmixed)
    ⟨start (some "ann") 100, []⟩ loadAddLoad :=
  (unmixed_iff rfl).mpr (by decide)

/-- The feed is loaded again before its first result is there. -/
def reload : List (Event Call Reply) :=
  [.call .loadPosts, .call .loadPosts, .answer 0 (.documents [("p", bobsPost.encode)]),
    .answer 0 (.documents [("p", bobsPost.encode)])]

/-- Both results of two overlapping loads are shown. -/
theorem unmixed_lost : ¬ ∀ (currentUser : Option String) (loadAmount : Nat)
    (c : Config PostList Op) (es : List (Event Call Reply)),
    postList.machine.run ⟨start currentUser loadAmount, []⟩ es = some c → c.core.Unmixed := by
  intro h
  exact absurd (h (some "ann") 100 _ reload rfl).nodup (by decide)

end PostList

end Subtle.Feed
