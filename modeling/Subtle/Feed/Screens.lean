import Subtle.Feed.AgeFilter
import Subtle.Feed.Authority
import Subtle.Feed.FeedVM
import Subtle.Lib.Clients

/-!
# The lists over the store

Any number of feeds and profiles are open over the store that all posts are written to.  A
feed loads posts, adds one and deletes others; a profile loads the posts of its user.  Post
views that are opened from their rows edit and like posts meanwhile.  A result of a load has
documents that were stored at some moment, by the time that it arrives possibly no longer.
A deletion that indexes outside a list ends the app on its device: what it has asked for may
still be done, but nothing there goes on.

* `screens`: the app with its lists, whose writes and deletions change the store.
* `answered_of_answer`, `acted_of_act`: what an answer to a list and what an event at a list
  can be.
* `Timeline.sound_step`: **whatever was stored names the user that made it**.
-/

namespace Subtle.Feed

open Subtle.Firestore Subtle.Lib Subtle.Storage

/-! ### The lists over the store -/

/-- What a query asks of a document, at some time and place. -/
def PostQuery.Selects : PostQuery → Document → Prop
  | newest _, _ => True
  | filtered _ uniQuery minAge maxAge, document => ∃ calendar now,
      ∀ w ∈ whereFields calendar now uniQuery minAge maxAge, w.matches document = true
  | mine posterId, document =>
      WhereField.matches ⟨"posterId", .isEqualTo, .string posterId⟩ document = true

/-- The app, with every store that it has had. -/
structure Timeline where
  config : Config (App × Authors) (Option String × Op)
  stores : List (String → Option Document)

namespace Timeline

def start (posts : String → Option Document) (objects : Finset URL) (a : Authors) : Timeline :=
  ⟨⟨(App.start posts objects, a), []⟩, [posts]⟩

def authors (t : Timeline) : Authors := t.config.core.2

/-- The app has moved on. -/
def next (t : Timeline) (config : Config (App × Authors) (Option String × Op)) : Timeline :=
  ⟨config, t.stores ++ [config.core.1.posts]⟩

/-- The document was stored under the id at some moment. -/
def Had (t : Timeline) (id : String) (document : Document) : Prop :=
  ∃ store ∈ t.stores, store id = some document

/-- The post is what was stored at some moment. -/
def Version (t : Timeline) (post : Post) : Prop :=
  ∃ id document, t.Had id document ∧ Post.decode id document = some post

end Timeline

def timeline : Machine Timeline (Event Call Reply) :=
  ⟨fun t e => (attributed.machine.step t.config e).map t.next⟩

/-- A post view of the user shows the copy of a post that a list holds. -/
def Timeline.openPost (t : Timeline) (currentUser : Option String) (post : Post) : Timeline :=
  let (s, a) := t.config.core
  { t with config := { t.config with
      core := ({ s with vms := s.vms ++ [PostVM.init currentUser post] }, a) } }

/-- What an operation of a list asks of the backend for the user of the list. -/
def FeedList.Op.backend (currentUser : Option String) :
    FeedList.Op → Option (Option String × Feed.Op)
  | .list (.upload image rest urls post) =>
      some (currentUser, .upload image rest urls (.addPost currentUser post))
  | .setData post => post.id.map fun id => (currentUser, .setData id post)
  | .delete post _ => post.id.map fun id => (currentUser, .deleteDocument id)
  | .list (.getDocuments ..) => none

def FeedList.Reply.backend : FeedList.Reply → Feed.Reply
  | .list (.uploaded url) => .uploaded url
  | .list .error | .committed false => .error
  | .list (.documents _) | .committed true => .ok

/-- The backend answers an operation of a list. -/
def Timeline.commit (t : Timeline) (currentUser : Option String) (op : FeedList.Op)
    (r : FeedList.Reply) : Option Timeline :=
  match op.backend currentUser with
  | some op => (attributed.answer t.config.core op r.backend).map fun p =>
      t.next { t.config with core := p.1 }
  | none => some t

/-- A `FeedVM`, or a `ProfileVM`, with its outstanding operations, and whether its app has
ended. -/
structure Screen where
  profile : Bool
  list : Config PostList FeedList.Op
  ended : Bool

namespace Screen

def currentUser (v : Screen) : Option String := v.list.core.currentUser

/-- The view models load their posts when they are made. -/
def init : Bool × Option String × Nat → Screen
  | (profile, currentUser, loadAmount) =>
      let p := (PostList.start currentUser loadAmount).load fun id =>
        if profile then .mine id else .newest loadAmount
      ⟨profile, ⟨p.1, p.2.map .list⟩, false⟩

def step (v : Screen) (e : Event FeedList.Call FeedList.Reply) : Option Screen :=
  if v.ended then none else (feedList.machine.step v.list e).map fun list => { v with list }

/-- The completion of a deletion indexes outside the list. -/
def traps (s : PostList) : FeedList.Op → FeedList.Reply → Bool
  | .delete _ index, .committed ok =>
      ((FeedList.deleteCompletions ok).foldlM (FeedList.complete index) s).isNone
  | _, _ => false

/-- The app has ended when the operation at `k` was answered: it shows nothing. -/
def quit (v : Screen) (k : Nat) : Screen :=
  { v with
    list := ⟨{ v.list.core with posts := [] }, v.list.pending.eraseIdx k⟩
    ended := true }

/-- The handler of the operation at `k`, which no app that has ended runs. -/
def handle (v : Screen) (k : Nat) (op : FeedList.Op) (r : FeedList.Reply) : Option Screen :=
  if v.ended || traps v.list.core op r then some (v.quit k) else v.step (.answer k r)

/-- What happens at a list: the buttons of its view, a post view for one of its rows, and the
answer to its operation at `k`. -/
inductive Event where
  | loadPosts
  | loadFilteredPosts (uniQuery : String) (minAge maxAge : Nat)
  | loadMyPosts
  | formCompletion (form : PostForm) (images : List UIImage) (id : String) (creationDate : Int)
  | openPost (index : Nat)
  | delete (index : Nat)
  | answer (k : Nat) (r : FeedList.Reply)

def act (t : Timeline) (v : Screen) : Event → Option (Timeline × Screen)
  | .loadPosts =>
      if v.profile then none else (v.step (.call (.list .loadPosts))).map (Prod.mk t)
  | .loadFilteredPosts uniQuery minAge maxAge =>
      if v.profile then none
      else (v.step (.call (.list (.loadFilteredPosts uniQuery minAge maxAge)))).map (Prod.mk t)
  | .loadMyPosts =>
      if v.profile then (v.step (.call (.list .loadMyPosts))).map (Prod.mk t) else none
  | .formCompletion form images id creationDate =>
      if v.profile then none
      else (Feed.formCompletion v.currentUser form id creationDate).bind fun post =>
        (attributed.call t.config.core
            (.submit v.currentUser form images id creationDate)).bind fun p =>
          (v.step (.call (.list (.addPostAndImages post images)))).map fun v =>
            ({ t with config := { t.config with core := p.1 } }, v)
  | .openPost index => (v.list.core.posts[index]?).map fun post =>
      (t.openPost v.currentUser post, v)
  | .delete index => (v.list.core.posts[index]?).bind fun post =>
      (v.step (.call (.deletePost post))).map (Prod.mk t)
  | .answer k r => (v.list.pending[k]?).bind fun op =>
      (t.commit v.currentUser op r).bind fun t => (v.handle k op r).map (Prod.mk t)

end Screen

def screens : Machine (Serving Timeline Screen)
    (Serving.Event (Event Call Reply) (Bool × Option String × Nat) Screen.Event) :=
  timeline.serving Screen.init Screen.act

/-- The posts that post views submit have new ids. -/
def Timeline.NewIds (t : Timeline) (e : Event Call Reply) : Prop :=
  Service.OnCall NewId t.config e

/-- The posts that a list submits have new ids, and its queries return documents that were
stored at some moment. -/
def Screen.Served (t : Timeline) (v : Screen) : Screen.Event → Prop
  | .formCompletion _ _ id _ => t.authors.author id = none
  | .answer k (.list (.documents docs)) => ∀ load query,
      v.list.pending[k]? = some (.list (.getDocuments load query)) →
        ∀ d ∈ docs, t.Had d.1 d.2 ∧ query.Selects d.2
  | _ => True

variable {t t' : Timeline} {v v' : Screen} {currentUser : Option String} {op : FeedList.Op}
  {post : Post}

/-! ### What an answer can be -/

namespace FeedList

/-- The operations that follow an upload, or the completed form of a post without images. -/
def goesOn (s : PostList) (urls : List URL) (post : Post) (images : List UIImage) : List Op :=
  (s.addImageHelper urls post images).2.map .list ++ (s.finished urls post images).map .setData

/-- **An answer to a list and what it leads to.** -/
inductive Answered (s : PostList) : Op → Reply → PostList → List Op → Prop where
  | failed (op : PostList.Op) : Answered s (.list op) (.list .error) s []
  | uncalled (load : Nat) (query : PostQuery) (docs : List (String × Document)) :
      Answered s (.list (.getDocuments load query)) (.list (.documents docs)) s []
  | loaded (load : Nat) (query : PostQuery) (docs : List (String × Document))
      (posts : List Post) (hposts : PostList.completion query docs = some posts) :
      Answered s (.list (.getDocuments load query)) (.list (.documents docs))
        (s.append load posts) []
  | uploaded (image : UIImage) (rest : List UIImage) (urls : List URL) (post : Post) (url : URL) :
      Answered s (.list (.upload image rest urls post)) (.list (.uploaded url))
        (s.addImageHelper (urls ++ [url]) post rest).1 (goesOn s (urls ++ [url]) post rest)
  | written (post : Post) (ok : Bool) : Answered s (.setData post) (.committed ok) s []
  | removed (post : Post) (index : Nat) (ok : Bool) :
      Answered s (.delete post index) (.committed ok)
        { s with posts := s.posts.eraseIdx index } []

theorem answered_of_answer {s s' : PostList} {r : Reply} {new : List Op}
    (h : answer s op r = some (s', new)) : Answered s op r s' new := by
  match op, r with
  | .list (.getDocuments load query), .list (.documents docs) =>
    obtain ⟨⟨s', ops⟩, hlist, heq⟩ := Option.map_eq_some_iff.mp h
    obtain ⟨rfl, rfl⟩ := Prod.mk.inj heq
    obtain ⟨-, hlist⟩ := Option.ite_none_right_eq_some.mp hlist
    obtain ⟨rfl, rfl⟩ := Prod.mk.inj (Option.some.inj hlist)
    cases hposts : PostList.completion query docs with
    | none => exact .uncalled load query docs
    | some posts => exact .loaded load query docs posts hposts
  | .list (.upload image rest urls post), .list (.uploaded url) =>
    obtain ⟨rfl, rfl⟩ := Prod.mk.inj (Option.some.inj h)
    exact .uploaded image rest urls post url
  | .list (.getDocuments load query), .list .error
  | .list (.upload image rest urls post), .list .error =>
    obtain ⟨rfl, rfl⟩ := Prod.mk.inj (Option.some.inj h)
    exact .failed _
  | .setData post, .committed ok =>
    obtain ⟨rfl, rfl⟩ := Prod.mk.inj (Option.some.inj h)
    exact .written post ok
  | .delete post index, .committed ok =>
    rw [answer_delete] at h
    obtain ⟨s', hremove, heq⟩ := Option.map_eq_some_iff.mp h
    obtain ⟨rfl, rfl⟩ := Prod.mk.inj heq
    obtain ⟨-, rfl⟩ := Option.ite_some_none_eq_some.mp hremove
    exact .removed post index ok
  | .list (.getDocuments _ _), .list (.uploaded _)
  | .list (.upload _ _ _ _), .list (.documents _)
  | .list _, .committed _ | .setData _, .list _ | .delete _ _, .list _ =>
    exact absurd h (by simp [answer, PostList.answer])

end FeedList

/-! ### New posts -/

theorem mem_finished {l : PostList} {urls : List URL} {images : List UIImage} {p : Post}
    (h : p ∈ l.finished urls post images) :
    p = { post with pictures := urls } ∧ l.currentUser ≠ none ∧ post.id ≠ none := by
  cases images with
  | cons image rest => exact absurd h List.not_mem_nil
  | nil =>
    have h : p ∈ l.added { post with pictures := urls } := h
    unfold PostList.added at h
    split at h
    · exact absurd h List.not_mem_nil
    · next hnot => exact ⟨List.mem_singleton.mp h, not_or.mp hnot⟩

theorem currentUser_addImageHelper (l : PostList) (urls : List URL) (post : Post)
    (images : List UIImage) :
    (l.addImageHelper urls post images).1.currentUser = l.currentUser := by
  cases images with
  | cons image rest => rfl
  | nil =>
    show (l.addPost _).currentUser = _
    unfold PostList.addPost
    split <;> rfl

/-- Only posts with an id are written. -/
theorem id_of_setData {l : PostList} {urls : List URL} {images : List UIImage} {p : Post}
    (h : .setData p ∈ FeedList.goesOn l urls post images) : p.id ≠ none := by
  rcases List.mem_append.mp h with h | h
  · obtain ⟨op, -, heq⟩ := List.mem_map.mp h
    exact absurd heq (by simp)
  · obtain ⟨q, hq, heq⟩ := List.mem_map.mp h
    obtain rfl := FeedList.Op.setData.inj heq
    obtain ⟨rfl, -, hid⟩ := mem_finished hq
    exact hid

/-- The posts that are in the list after an upload were there, or are written now. -/
theorem mem_posts_addImageHelper {l : PostList} {urls : List URL} {images : List UIImage} :
    ∀ p ∈ (l.addImageHelper urls post images).1.posts, p ∈ l.posts ∨
      .setData p ∈ FeedList.goesOn l urls post images := by
  intro p hp
  rw [FeedLog.posts_addImageHelper] at hp
  rcases List.mem_append.mp hp with hp | hp
  · exact Or.inr (List.mem_append_right _ (List.mem_map_of_mem hp))
  · exact Or.inl hp

theorem currentUser_of_formCompletion {form : PostForm} {id : String} {creationDate : Int}
    (h : formCompletion currentUser form id creationDate = some post) : currentUser ≠ none := by
  rintro rfl
  exact absurd h (Option.some_ne_none _).symm

theorem call_addPostAndImages {l : PostList} (huser : l.currentUser ≠ none) (post : Post)
    (images : List UIImage) : FeedList.call l (.list (.addPostAndImages post images)) =
      some ((l.addImageHelper [] post images).1, FeedList.goesOn l [] post images) := by
  simp [FeedList.goesOn, FeedList.call, PostList.call, PostList.addedByCall, huser]

/-- The app issues the uploads of a new post for the user of the form. -/
theorem mem_submit {p p' : App × Authors} {form : PostForm} {images : List UIImage} {id : String}
    {creationDate : Int} {ops : List (Option String × Op)}
    (hpost : formCompletion currentUser form id creationDate = some post)
    (hcall : attributed.call p (.submit currentUser form images id creationDate) = some (p', ops)) :
    ∀ op ∈ p.1.addImageHelper [] (.addPost currentUser post) images, (currentUser, op) ∈ ops := by
  obtain ⟨s, a⟩ := p
  obtain ⟨s', new, hnew, -, rfl⟩ := call_of_attributed hcall
  obtain ⟨post', hpost', heq⟩ := Option.map_eq_some_iff.mp hnew
  obtain rfl := Option.some.inj (hpost.symm.trans hpost')
  obtain ⟨-, rfl⟩ := Prod.mk.inj heq
  obtain ⟨user, rfl, -⟩ := Option.map_eq_some_iff.mp hpost
  exact fun op hop => List.mem_map_of_mem hop

/-- A form leaves the app as it is. -/
theorem eq_of_submit {p p' : App × Authors} {form : PostForm} {images : List UIImage} {id : String}
    {creationDate : Int} {ops : List (Option String × Op)}
    (hcall : attributed.call p (.submit currentUser form images id creationDate) =
      some (p', ops)) : p'.1 = p.1 := by
  obtain ⟨s, a⟩ := p
  obtain ⟨s', new, hnew, rfl, -⟩ := call_of_attributed hcall
  obtain ⟨post, -, heq⟩ := Option.map_eq_some_iff.mp hnew
  exact (Prod.mk.inj heq).1.symm

/-- The app goes on with the uploads of a new post for its user. -/
theorem mem_uploaded {p p' : App × Authors} {image : UIImage} {rest : List UIImage}
    {urls : List URL} {url : URL} {ops : List (Option String × Op)}
    (hanswer : attributed.answer p
      (currentUser, .upload image rest urls (.addPost currentUser post))
      (.uploaded url) = some (p', ops)) :
    ∀ op ∈ p'.1.addImageHelper (urls ++ [url]) (.addPost currentUser post) rest,
      (currentUser, op) ∈ ops := by
  obtain ⟨s, a⟩ := p
  obtain ⟨s', new, hnew, rfl, rfl⟩ := answer_of_attributed hanswer
  obtain ⟨-, hnew⟩ := Option.ite_none_left_eq_some.mp hnew
  obtain ⟨rfl, rfl⟩ := Prod.mk.inj (Option.some.inj hnew)
  exact fun op hop => List.mem_map_of_mem hop

/-- A list deletes a post of its user only. -/
theorem FeedList.mem_deletePost {l : PostList} (h : op ∈ FeedList.deletePost l post) :
    ∃ index, op = .delete post index ∧ l.currentUser = some post.posterId := by
  unfold FeedList.deletePost FeedList.deleteDocument at h
  split at h
  · split at h
    · next userId _ huser _ =>
      split at h
      · next hposter => exact ⟨_, List.mem_singleton.mp h, hposter ▸ huser⟩
      · exact absurd h List.not_mem_nil
    · exact absurd h List.not_mem_nil
  · exact absurd h List.not_mem_nil

/-! ### What can happen at a list -/

namespace Screen

theorem step_call {x : FeedList.Call} (h : v.step (.call x) = some v') :
    ∃ s new, FeedList.call v.list.core x = some (s, new) ∧
      v' = { v with list := ⟨s, v.list.pending ++ new⟩ } := by
  obtain ⟨-, h⟩ := Option.ite_none_left_eq_some.mp h
  obtain ⟨list, hlist, rfl⟩ := Option.map_eq_some_iff.mp h
  obtain ⟨⟨s, new⟩, hcall, rfl⟩ := Option.map_eq_some_iff.mp hlist
  exact ⟨s, new, hcall, rfl⟩

theorem step_answer {k : Nat} {r : FeedList.Reply} (hop : v.list.pending[k]? = some op)
    (h : v.step (.answer k r) = some v') :
    ∃ s new, FeedList.answer v.list.core op r = some (s, new) ∧
      v' = { v with list := ⟨s, v.list.pending.eraseIdx k ++ new⟩ } := by
  obtain ⟨-, h⟩ := Option.ite_none_left_eq_some.mp h
  obtain ⟨list, hlist, rfl⟩ := Option.map_eq_some_iff.mp h
  obtain ⟨op', hop', hlist⟩ := Option.bind_eq_some_iff.mp hlist
  obtain rfl := Option.some.inj (hop.symm.trans hop')
  obtain ⟨⟨s, new⟩, hanswer, rfl⟩ := Option.map_eq_some_iff.mp hlist
  exact ⟨s, new, hanswer, rfl⟩

/-- **What happens at a list**, and what it leads to. -/
inductive Acted (t : Timeline) (v : Screen) : Event → Timeline → Screen → Prop where
  | loaded (e : Event) (query : String → PostQuery)
      (hquery : v.profile = true → ∀ id, query id = .mine id) :
      Acted t v e t { v with list := ⟨(v.list.core.load query).1,
        v.list.pending ++ (v.list.core.load query).2.map .list⟩ }
  | formCompleted (form : PostForm) (images : List UIImage) (id : String) (creationDate : Int)
      (post : Post) (p : App × Authors) (ops : List (Option String × Op))
      (hpost : Feed.formCompletion v.currentUser form id creationDate = some post)
      (hcall : attributed.call t.config.core
        (.submit v.currentUser form images id creationDate) = some (p, ops)) :
      Acted t v (.formCompletion form images id creationDate)
        { t with config := { t.config with core := p } }
        { v with list := ⟨(v.list.core.addImageHelper [] post images).1,
          v.list.pending ++ FeedList.goesOn v.list.core [] post images⟩ }
  | opened (index : Nat) (post : Post) (hpost : v.list.core.posts[index]? = some post) :
      Acted t v (.openPost index) (t.openPost v.currentUser post) v
  | deleted (index : Nat) (post : Post) (hpost : v.list.core.posts[index]? = some post) :
      Acted t v (.delete index) t
        { v with list := ⟨v.list.core, v.list.pending ++ FeedList.deletePost v.list.core post⟩ }
  | answered (k : Nat) (r : FeedList.Reply) (op : FeedList.Op) (t' : Timeline) (s : PostList)
      (new : List FeedList.Op) (hop : v.list.pending[k]? = some op)
      (hcommit : t.commit v.currentUser op r = some t')
      (hanswered : FeedList.Answered v.list.core op r s new) :
      Acted t v (.answer k r) t' { v with list := ⟨s, v.list.pending.eraseIdx k ++ new⟩ }
  | ended (k : Nat) (r : FeedList.Reply) (op : FeedList.Op) (t' : Timeline)
      (hop : v.list.pending[k]? = some op) (hcommit : t.commit v.currentUser op r = some t')
      (hended : v.ended = true ∨ traps v.list.core op r = true) :
      Acted t v (.answer k r) t' (v.quit k)

/-- A button that loads. -/
theorem acted_of_load {e : Event} {x : PostList.Call} {query : String → PostQuery}
    (hcall : v.list.core.call x = some (v.list.core.load query))
    (hadded : v.list.core.addedByCall x = [])
    (hquery : v.profile = true → ∀ id, query id = .mine id)
    (h : (v.step (.call (.list x))).map (Prod.mk t) = some (t', v')) : Acted t v e t' v' := by
  obtain ⟨w, hstep, heq⟩ := Option.map_eq_some_iff.mp h
  obtain ⟨rfl, rfl⟩ := Prod.mk.inj heq
  obtain ⟨s, new, hlist, rfl⟩ := step_call hstep
  simp only [FeedList.call, hcall, hadded, Option.map_some, List.map_nil, List.append_nil,
    Option.some.injEq, Prod.mk.injEq] at hlist
  obtain ⟨rfl, rfl⟩ := hlist
  exact .loaded e query hquery

theorem acted_of_act {e : Event} (h : v.act t e = some (t', v')) : Acted t v e t' v' := by
  cases e with
  | loadPosts =>
    obtain ⟨hprofile, h⟩ := Option.ite_none_left_eq_some.mp h
    exact acted_of_load rfl rfl (fun htrue => absurd htrue hprofile) h
  | loadFilteredPosts uniQuery minAge maxAge =>
    obtain ⟨hprofile, h⟩ := Option.ite_none_left_eq_some.mp h
    exact acted_of_load rfl rfl (fun htrue => absurd htrue hprofile) h
  | loadMyPosts =>
    obtain ⟨-, h⟩ := Option.ite_none_right_eq_some.mp h
    exact acted_of_load rfl rfl (fun _ _ => rfl) h
  | formCompletion form images id creationDate =>
    obtain ⟨-, h⟩ := Option.ite_none_left_eq_some.mp h
    obtain ⟨post, hpost, h⟩ := Option.bind_eq_some_iff.mp h
    obtain ⟨⟨p, ops⟩, hcall, h⟩ := Option.bind_eq_some_iff.mp h
    obtain ⟨w, hstep, heq⟩ := Option.map_eq_some_iff.mp h
    obtain ⟨rfl, rfl⟩ := Prod.mk.inj heq
    obtain ⟨s, new, hlist, rfl⟩ := step_call hstep
    rw [call_addPostAndImages (currentUser_of_formCompletion hpost)] at hlist
    obtain ⟨rfl, rfl⟩ := Prod.mk.inj (Option.some.inj hlist)
    exact .formCompleted form images id creationDate post p ops hpost hcall
  | openPost index =>
    obtain ⟨post, hpost, heq⟩ := Option.map_eq_some_iff.mp h
    obtain ⟨rfl, rfl⟩ := Prod.mk.inj heq
    exact .opened index post hpost
  | delete index =>
    obtain ⟨post, hpost, h⟩ := Option.bind_eq_some_iff.mp h
    obtain ⟨w, hstep, heq⟩ := Option.map_eq_some_iff.mp h
    obtain ⟨rfl, rfl⟩ := Prod.mk.inj heq
    obtain ⟨s, new, hlist, rfl⟩ := step_call hstep
    obtain ⟨rfl, rfl⟩ := Prod.mk.inj (Option.some.inj hlist)
    exact .deleted index post hpost
  | answer k r =>
    obtain ⟨op, hop, h⟩ := Option.bind_eq_some_iff.mp h
    obtain ⟨w, hcommit, h⟩ := Option.bind_eq_some_iff.mp h
    obtain ⟨x, hhandle, heq⟩ := Option.map_eq_some_iff.mp h
    obtain ⟨rfl, rfl⟩ := Prod.mk.inj heq
    unfold handle at hhandle
    split at hhandle
    · next hended =>
      obtain rfl := Option.some.inj hhandle
      exact .ended k r op w hop hcommit (Bool.or_eq_true _ _ ▸ hended)
    · obtain ⟨s, new, hanswer, rfl⟩ := step_answer hop hhandle
      exact .answered k r op w s new hop hcommit (FeedList.answered_of_answer hanswer)

end Screen

/-! ### What post views show -/

section

variable {s s' : App} {vm : PostVM} {op : Op} {new : List Op}

/-- The operation brings no post. -/
def Op.Sends : Op → Prop
  | response _ _ => False
  | _ => True

theorem sends_addImageHelper {urls : List URL} {after : After} {images : List UIImage}
    (h : op ∈ s.addImageHelper urls after images) : op.Sends := by
  cases images with
  | cons image rest =>
    obtain rfl := List.mem_singleton.mp h
    trivial
  | nil =>
    cases after with
    | addPost currentUser post =>
      obtain ⟨id, rfl⟩ := mem_addPost h
      trivial
    | modifyPost i params newImages =>
      simp only [App.addImageHelper, App.uploaded] at h
      split at h
      · obtain ⟨id, rfl⟩ := mem_modifyPost h
        trivial
      · exact absurd h List.not_mem_nil

theorem sends_addImages {currentUser : Option String} {images : List UIImage} {after : After}
    (h : op ∈ s.addImages currentUser images after) : op.Sends := by
  unfold App.addImages at h
  split at h
  · exact sends_addImageHelper h
  · exact absurd h List.not_mem_nil

theorem sends_of_called {x : Call} (h : Called s x s' new) : ∀ op ∈ new, op.Sends := by
  intro op hop
  cases h with
  | submitted => exact sends_addImages hop
  | opened | filled | imageAdded | toggled | imagesDeleted => exact absurd hop List.not_mem_nil
  | saved i vm hvm hshows =>
    unfold editPostAndImages at hop
    split at hop
    · exact sends_addImages hop
    · rcases List.mem_append.mp hop with hop | hop
      · obtain ⟨id, rfl⟩ := mem_modifyPost hop
        trivial
      · obtain ⟨index, rfl⟩ := mem_startDeletion hop
        trivial
  | liked i vm =>
    obtain ⟨id, user, rfl⟩ := mem_likePost hop
    trivial
  | unliked i vm =>
    obtain ⟨id, user, rfl⟩ := mem_unlikePost hop
    trivial
  | postDeleted i vm =>
    obtain ⟨id, rfl⟩ := mem_deletePost hop
    trivial

/-- The post is stored. -/
def App.Stores (s : App) (post : Post) : Prop :=
  ∃ id document, s.posts id = some document ∧ Post.decode id document = some post

/-- A post view of the user shows the post. -/
def App.Views (s : App) (currentUser : Option String) (post : Post) : Prop :=
  ∃ vm ∈ s.vms, vm.currentUser = currentUser ∧ vm.post = post

/-- **A call opens a post view for a stored post at most.** -/
theorem views_call {x : Call} (h : Called s x s' new) :
    ∀ vm ∈ s'.vms, s.Views vm.currentUser vm.post ∨ s'.Stores vm.post := by
  have hold : ∀ vm ∈ s.vms, s.Views vm.currentUser vm.post ∨ s'.Stores vm.post :=
    fun vm hvm => Or.inl ⟨vm, hvm, rfl, rfl⟩
  have hset : ∀ {i w w'}, s.vms[i]? = some w → w.currentUser = w'.currentUser →
      w.post = w'.post → ∀ vm ∈ s.vms.set i w', s.Views vm.currentUser vm.post ∨
        s'.Stores vm.post := by
    intro i w w' hw huser hpost vm hvm
    rcases List.mem_or_eq_of_mem_set hvm with hvm | rfl
    · exact hold vm hvm
    · exact Or.inl ⟨w, List.mem_of_getElem? hw, huser, hpost⟩
  cases h with
  | submitted | saved | liked | unliked | postDeleted => exact hold
  | opened currentUser id document p hdoc hdecode =>
    intro vm hvm
    rcases List.mem_append.mp hvm with hvm | hvm
    · exact hold vm hvm
    · obtain rfl := List.mem_singleton.mp hvm
      exact Or.inr ⟨id, document, hdoc, hdecode⟩
  | filled i form w hw => exact hset hw rfl rfl
  | imageAdded i image w hw => exact hset hw rfl rfl
  | toggled i url w hw hurl => exact hset hw rfl rfl
  | imagesDeleted i imagesToRetain deleted w hw hretain hdeleted => exact hset hw rfl rfl

/-- **An answer brings a post view the post that was read for it.** -/
theorem views_answer {r : Reply} (h : Answered s op r s' new) :
    ∀ vm ∈ s'.vms, s.Views vm.currentUser vm.post ∨ ∃ i, op = .response i vm.post := by
  intro vm hvm
  cases h with
  | failed | uploaded | created | updated | missing | read | removed | kept | deleted =>
    exact Or.inl ⟨vm, hvm, rfl, rfl⟩
  | delivered i p =>
    obtain ⟨j, hj⟩ := List.mem_iff_getElem?.mp hvm
    by_cases hij : i = j
    · subst hij
      rw [List.getElem?_modify_eq] at hj
      obtain ⟨w, -, rfl⟩ := Option.map_eq_some_iff.mp hj
      exact Or.inr ⟨i, rfl⟩
    · rw [List.getElem?_modify_ne _ _ hij] at hj
      exact Or.inl ⟨vm, List.mem_of_getElem? hj, rfl, rfl⟩

/-- A read brings a stored post. -/
theorem stores_answer {r : Reply} (h : s.answer op r = some (s', new)) {i : Nat}
    (hop : .response i post ∈ new) : s'.Stores post := by
  have hanswered := answered_of_answer h
  have hsends : ∀ {ops : List Op}, (∀ op ∈ ops, op.Sends) → .response i post ∉ ops :=
    fun hall hmem => hall _ hmem
  cases hanswered with
  | failed | created | missing | delivered | deleted => exact absurd hop List.not_mem_nil
  | uploaded => exact absurd hop (hsends fun _ => sends_addImageHelper)
  | updated => exact absurd (List.mem_singleton.mp hop) (by simp)
  | read j id p =>
    obtain ⟨rfl, rfl⟩ := Op.response.inj (List.mem_singleton.mp hop)
    obtain ⟨document, hdoc, hdecode⟩ := Option.bind_eq_some_iff.mp (decode_of_read h)
    exact ⟨id, document, hdoc, hdecode⟩
  | removed | kept => exact absurd (mem_nextDeletion hop) (by simp)

end

/-! ### The store -/

/-- What an operation that is answered, or a call, leaves of the record and the past. -/
structure Timeline.Grows (t t' : Timeline) : Prop where
  authors : t.authors.Extends t'.authors
  had : ∀ {id document}, t.Had id document → t'.Had id document

/-- All posts that were ever stored name the user that made them, and post views show what was
stored or is new and of their user. -/
structure Timeline.Sound (t : Timeline) : Prop where
  attributed : Attributed t.config.core t.config.pending
  had : ∀ id document, t.Had id document → t.authors.Ascribes id document
  views : ∀ vm ∈ t.config.core.1.vms, t.Version vm.post ∨ vm.currentUser = some vm.post.posterId
  reads : ∀ o ∈ t.config.pending, ∀ i post, o.2 = .response i post → t.Version post

namespace Timeline

variable {config : Config (App × Authors) (Option String × Op)}

theorem had_next {id : String} {document : Document} : (t.next config).Had id document ↔
    t.Had id document ∨ config.core.1.posts id = some document := by
  simp [Had, next, or_and_right, exists_or]

theorem Grows.rfl : t.Grows t := ⟨.rfl, fun h => h⟩

theorem Grows.version (h : t.Grows t') (hversion : t.Version post) : t'.Version post := by
  obtain ⟨id, document, hhad, hdecode⟩ := hversion
  exact ⟨id, document, h.had hhad, hdecode⟩

theorem version_of_stores (h : config.core.1.Stores post) : (t.next config).Version post := by
  obtain ⟨id, document, hstored, hdecode⟩ := h
  exact ⟨id, document, had_next.mpr (Or.inr hstored), hdecode⟩

/-- The app has moved on: what is stored names its creators, and what is new in post views was
read for them or is stored. -/
theorem Sound.next (h : t.Sound) (hattributed : Attributed config.core config.pending)
    (hextends : t.authors.Extends config.core.2)
    (hviews : ∀ vm ∈ config.core.1.vms, t.config.core.1.Views vm.currentUser vm.post ∨
      t.Version vm.post ∨ config.core.1.Stores vm.post)
    (hreads : ∀ o ∈ config.pending, ∀ i post, o.2 = .response i post →
      o ∈ t.config.pending ∨ config.core.1.Stores post) :
    (t.next config).Sound ∧ t.Grows (t.next config) := by
  have hgrows : t.Grows (t.next config) := ⟨hextends, fun hhad => had_next.mpr (Or.inl hhad)⟩
  refine ⟨⟨hattributed, fun id document hhad => ?_, fun vm hvm => ?_, fun o ho i post heq => ?_⟩,
    hgrows⟩
  · rcases had_next.mp hhad with hhad | hstored
    · exact (h.had id document hhad).extend hextends
    · exact hattributed.posts id document hstored
  · rcases hviews vm hvm with ⟨w, hw, huser, hpost⟩ | hversion | hstores
    · rw [← huser, ← hpost]
      exact (h.views w hw).imp_left hgrows.version
    · exact Or.inl (hgrows.version hversion)
    · exact Or.inl (version_of_stores hstores)
  · rcases hreads o ho i post heq with hold | hstores
    · exact hgrows.version (h.reads o hold i post heq)
    · exact version_of_stores hstores

/-- A post view is opened for a post that names its creator. -/
theorem Sound.openPost (h : t.Sound)
    (hsource : t.Version post ∨ currentUser = some post.posterId) {id : String}
    (hheld : t.authors.Holds id (.init currentUser post)) :
    (t.openPost currentUser post).Sound ∧ t.Grows (t.openPost currentUser post) := by
  have hattributed := h.attributed.openPost hheld
  refine ⟨⟨hattributed, h.had, fun vm hvm => ?_, h.reads⟩, .rfl, fun hhad => hhad⟩
  rcases List.mem_append.mp hvm with hvm | hvm
  · exact h.views vm hvm
  · obtain rfl := List.mem_singleton.mp hvm
    exact hsource

/-- What an answer brings to post views was read for them, and what is read is stored. -/
theorem views_attributed {o : Option String × Op} {r : Reply} {p : App × Authors}
    {new : List (Option String × Op)}
    (ho : ∀ i post, o.2 = .response i post → t.Version post)
    (hanswer : Feed.attributed.answer t.config.core o r = some (p, new)) :
    (∀ vm ∈ p.1.vms, t.config.core.1.Views vm.currentUser vm.post ∨ t.Version vm.post ∨
      p.1.Stores vm.post) ∧
    ∀ o' ∈ new, ∀ i post, o'.2 = .response i post → p.1.Stores post := by
  obtain ⟨⟨⟨s, a⟩, pending⟩, stores⟩ := t
  obtain ⟨user, op⟩ := o
  obtain ⟨s', ops, hops, rfl, rfl⟩ := answer_of_attributed hanswer
  refine ⟨fun vm hvm => ?_, fun o' ho' i post heq => ?_⟩
  · rcases views_answer (answered_of_answer hops) vm hvm with hold | ⟨i, rfl⟩
    · exact Or.inl hold
    · exact Or.inr (Or.inl (ho i _ rfl))
  · obtain ⟨op', hop', rfl⟩ := List.mem_map.mp ho'
    obtain rfl : op' = .response i post := heq
    exact stores_answer hops hop'

/-- A call of the app keeps the stores and the post views in order. -/
theorem Sound.called (h : t.Sound) {x : Call} {p : App × Authors}
    {new : List (Option String × Op)} (hnew : NewId t.config.core x)
    (hcall : Feed.attributed.call t.config.core x = some (p, new)) :
    (t.next ⟨p, t.config.pending ++ new⟩).Sound ∧
      t.Grows (t.next ⟨p, t.config.pending ++ new⟩) := by
  have hattributed := attributed_call h.attributed hnew hcall
  have hextends := extends_call hnew hcall
  obtain ⟨⟨⟨s, a⟩, pending⟩, stores⟩ := t
  obtain ⟨s', ops, hops, rfl, rfl⟩ := call_of_attributed hcall
  have hcalled : Called s x s' ops := called_of_call hops
  refine h.next hattributed hextends
    (fun vm hvm => (views_call hcalled vm hvm).imp_right Or.inr) fun o ho i post heq => Or.inl ?_
  refine (List.mem_append.mp ho).resolve_right fun ho => ?_
  obtain ⟨op, hop, rfl⟩ := List.mem_map.mp ho
  obtain rfl : op = .response i post := heq
  exact sends_of_called hcalled _ hop

/-- An answer of the app keeps the stores and the post views in order. -/
theorem Sound.answered (h : t.Sound) {o : Option String × Op}
    {pre tail new : List (Option String × Op)} {r : Reply} {p : App × Authors}
    (hpending : t.config.pending = pre ++ o :: tail)
    (hanswer : Feed.attributed.answer t.config.core o r = some (p, new)) :
    (t.next ⟨p, pre ++ tail ++ new⟩).Sound ∧ t.Grows (t.next ⟨p, pre ++ tail ++ new⟩) := by
  have hall : Attributed t.config.core (pre ++ o :: tail) := hpending ▸ h.attributed
  have hattributed := attributed_answer hall hanswer
  have hextends := extends_answer hall hanswer
  have hmem : o ∈ t.config.pending := hpending ▸ Service.mem_pending_iff.mpr (Or.inl rfl)
  have hviewed := views_attributed (h.reads o hmem) hanswer
  refine h.next hattributed hextends hviewed.1 fun o' ho' i post heq => ?_
  rcases List.mem_append.mp ho' with ho' | ho'
  · exact Or.inl (hpending ▸ Service.mem_pending_iff.mpr (Or.inr ho'))
  · exact Or.inr (hviewed.2 o' ho' i post heq)

theorem sound_step {e : Event Call Reply} (h : t.Sound) (hnew : t.NewIds e)
    (hstep : timeline.step t e = some t') : t'.Sound ∧ t.Grows t' := by
  obtain ⟨config', hconfig, rfl⟩ := Option.map_eq_some_iff.mp hstep
  rcases Service.step_cases hconfig with ⟨x, p', new, rfl, hcall, rfl⟩ |
    ⟨pre, op, post, r, p', new, rfl, hpending, hanswer, rfl⟩
  · exact h.called hnew hcall
  · exact h.answered hpending hanswer

end Timeline

theorem Timeline.sound_start {posts : String → Option Document} {objects : Finset URL}
    {a : Authors}
    (hposts : ∀ id document, posts id = some document → a.Ascribes id document)
    (hobjects : ∀ url id, a.home url = some id → url ∈ objects) :
    (Timeline.start posts objects a).Sound := by
  refine ⟨⟨hposts, List.forall_mem_nil _, List.forall_mem_nil _, List.forall_mem_nil _, hobjects⟩,
    ?_, List.forall_mem_nil _, List.forall_mem_nil _⟩
  rintro id document ⟨store, hstore, hdoc⟩
  obtain rfl := List.mem_singleton.mp hstore
  exact hposts id document hdoc

end Subtle.Feed
