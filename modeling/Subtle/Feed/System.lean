import Subtle.Feed.Post
import Subtle.Lib.Machine

/-!
# Posts, pictures and the clients that write them

The clients share the documents of `Posts` and the objects in the storage.  A call
of a client issues backend operations, and the answer to an operation commits it,
or not, and runs its handler, which may issue more.

A save of the edit form writes the post once all new images are uploaded.  Without
new images it writes the post and starts to delete the removed images at once, and
neither waits for the other.

* `app`: the service.  Its state has two records that no client reads: the URLs
  given out so far, and the writes committed to each post since `addPost` created
  it.
* `called_of_call`, `answered_of_answer`: what a call and what an answer can be.
-/

namespace Subtle.Feed

open Subtle.Firestore Subtle.Lib Subtle.Storage

/-- What `updateData` does to a post. -/
inductive Change where
  | edit (updateData : Document)
  | like (likerId : String)
  | unlike (unlikerId : String)

/-- One atomic write on the server. -/
def Change.commit : Change → Document → Document
  | edit updateData, document => document.overwrite updateData
  | like likerId, document =>
      assign document "likes" (.arrayUnion (document "likes") (.string likerId))
  | unlike unlikerId, document =>
      assign document "likes" (.arrayRemove (document "likes") (.string unlikerId))

/-- Who waits for a batch of uploads. -/
inductive After where
  | addPost (currentUser : Option String) (post : Post)
  | modifyPost (vm : Nat) (editParams : Document) (newImages : List URL)

/-- A backend operation, with what its handler needs. -/
inductive Op where
  | upload (image : UIImage) (rest : List UIImage) (urls : List URL) (after : After)
  | setData (id : String) (post : Post)
  | updateData (vm : Nat) (id : String) (change : Change)
  | getDocument (vm : Nat) (id : String)
  | response (vm : Nat) (post : Post)
  | deleteImage (urls : List URL) (index : Nat)
  | deleteDocument (id : String)

/-- The answer of the backend. -/
inductive Reply where
  | ok
  | error
  | uploaded (url : URL)
  deriving DecidableEq

structure App where
  vms : List PostVM
  posts : String → Option Document
  objects : Finset URL
  issued : Finset URL
  history : String → Option (Document × List Change)

/-- The stores at the start, before any client has done anything. -/
def App.start (posts : String → Option Document) (objects : Finset URL) : App :=
  ⟨[], posts, objects, objects, fun _ => none⟩

/-! ### The services -/

def addPost (currentUser : Option String) (post : Post) : List Op :=
  match currentUser, post.id with
  | some _, some id => [.setData id post]
  | _, _ => []

def modifyPost (i : Nat) (vm : PostVM) (updateData : Document) : List Op :=
  match vm.currentUser, vm.post.id with
  | some userId, some id =>
      if userId = vm.post.posterId then [.updateData i id (.edit updateData)] else []
  | _, _ => []

def deletePost (currentUser : Option String) (post : Post) : List Op :=
  match currentUser, post.id with
  | some userId, some id => if userId = post.posterId then [.deleteDocument id] else []
  | _, _ => []

def likePost (i : Nat) (post : Post) (likerId : String) : List Op :=
  if likerId ∉ post.likes then
    match post.id with
    | some id => [.updateData i id (.like likerId)]
    | none => []
  else []

def unlikePost (i : Nat) (post : Post) (unlikerId : String) : List Op :=
  if unlikerId ∈ post.likes then
    match post.id with
    | some id => [.updateData i id (.unlike unlikerId)]
    | none => []
  else []

/-- The completion of a batch of uploads. -/
def App.uploaded (s : App) (urls : List URL) : After → List Op
  | .addPost currentUser post => addPost currentUser { post with pictures := urls }
  | .modifyPost i editParams newImages =>
      match s.vms[i]? with
      | some vm => modifyPost i vm (PostVM.withPictures editParams (newImages ++ urls))
      | none => []

/-- Upload the first of the images, or complete. -/
def App.addImageHelper (s : App) (urls : List URL) (after : After) : List UIImage → List Op
  | image :: rest => [.upload image rest urls after]
  | [] => s.uploaded urls after

def App.addImages (s : App) (currentUser : Option String) (images : List UIImage)
    (after : After) : List Op :=
  match currentUser with
  | some _ => s.addImageHelper [] after images
  | none => []

/-- The deletions that `StorageService.deleteImages` starts with. -/
def startDeletion (currentUser : Option String) (urls : List URL) : List Op :=
  (Storage.deleteImages currentUser urls).pending.map (.deleteImage urls)

/-- The deletions that go on once the one at `index` is answered. -/
def nextDeletion (urls : List URL) (index : Nat) (ok : Bool) : List Op :=
  (answerDelete urls ⟨[], [], [], []⟩ index ok).2.map (.deleteImage urls)

/-! ### The view models -/

def addPostAndImages (s : App) (currentUser : Option String) (post : Post)
    (images : List UIImage) : List Op :=
  s.addImages currentUser images (.addPost currentUser post)

def editPostAndImages (s : App) (i : Nat) (vm : PostVM) : List Op :=
  if vm.additionalImages ≠ [] then
    s.addImages vm.currentUser vm.additionalImages (.modifyPost i vm.editParams vm.editImages)
  else
    modifyPost i vm (PostVM.withPictures vm.editParams vm.editImages) ++
      startDeletion vm.currentUser vm.imagesToDelete

def PostVM.likePost (i : Nat) (vm : PostVM) : List Op :=
  match vm.currentUser with
  | some likerId => Feed.likePost i vm.post likerId
  | none => []

def PostVM.unlikePost (i : Nat) (vm : PostVM) : List Op :=
  match vm.currentUser with
  | some unlikerId => Feed.unlikePost i vm.post unlikerId
  | none => []

inductive Call where
  | submit (currentUser : Option String) (form : PostForm) (images : List UIImage) (id : String)
      (creationDate : Int)
  | openPost (currentUser : Option String) (id : String)
  | fill (vm : Nat) (form : PostForm)
  | addImage (vm : Nat) (image : UIImage)
  | toggle (vm : Nat) (url : URL)
  | deleteImages (vm : Nat) (imagesToRetain deleted : List URL)
  | save (vm : Nat)
  | like (vm : Nat)
  | unlike (vm : Nat)
  | deletePost (vm : Nat)

/-- A change of one edit form, while `PostView` shows its button. -/
def App.editForm (s : App) (i : Nat) (f : PostVM → Option PostVM) : Option (App × List Op) :=
  (s.vms[i]?).bind fun vm =>
    if vm.showsEdit then (f vm).map fun vm' => ({ s with vms := s.vms.set i vm' }, []) else none

def App.call (s : App) : Call → Option (App × List Op)
  | .submit currentUser form images id creationDate =>
      (formCompletion currentUser form id creationDate).map fun post =>
        (s, addPostAndImages s currentUser post images)
  | .openPost currentUser id =>
      ((s.posts id).bind (Post.decode id)).map fun post =>
        ({ s with vms := s.vms ++ [PostVM.init currentUser post] }, [])
  | .fill i form => s.editForm i fun vm => some (vm.fill form)
  | .addImage i image => s.editForm i fun vm =>
      some { vm with additionalImages := vm.additionalImages ++ [image] }
  | .toggle i url => s.editForm i fun vm =>
      -- the images of the form are the buttons
      if url ∈ vm.editImages then some (vm.toggle url) else none
  | .deleteImages i imagesToRetain deleted => s.editForm i fun vm =>
      if PostVM.Enumerates imagesToRetain (vm.editImages.toFinset \ vm.selected) ∧
          PostVM.Enumerates deleted vm.selected then
        some (vm.deleteImages imagesToRetain deleted)
      else none
  | .save i => (s.vms[i]?).bind fun vm =>
      if vm.showsEdit then some (s, editPostAndImages s i vm) else none
  | .like i => (s.vms[i]?).map fun vm => (s, vm.likePost i)
  | .unlike i => (s.vms[i]?).map fun vm => (s, vm.unlikePost i)
  | .deletePost i => (s.vms[i]?).map fun vm => (s, deletePost vm.currentUser vm.post)

def App.answer (s : App) : Op → Reply → Option (App × List Op)
  | .upload _ rest urls after, .uploaded url =>
      -- a new object has a new URL
      if url ∈ s.issued then none
      else
        let s := { s with objects := insert url s.objects, issued := insert url s.issued }
        some (s, s.addImageHelper (urls ++ [url]) after rest)
  | .setData id post, .ok => some
      ({ s with
          posts := Function.update s.posts id (some post.encode)
          history := Function.update s.history id (some (post.encode, [])) }, [])
  | .updateData i id change, .ok => (s.posts id).map fun document =>
      ({ s with
          posts := Function.update s.posts id (some (change.commit document))
          history := Function.update s.history id
            ((s.history id).map fun h => (h.1, h.2 ++ [change])) }, [.getDocument i id])
  | .getDocument i id, .ok =>
      -- the document as of now, which may reach the client later
      some (s, ((s.posts id).bind (Post.decode id)).elim [] fun post => [.response i post])
  | .response i post, .ok =>
      some ({ s with vms := s.vms.modify i fun vm => { vm with post := post } }, [])
  | .deleteImage urls index, .ok =>
      some ({ s with objects := s.objects.filter fun url => urls[index]? ≠ some url },
        nextDeletion urls index true)
  | .deleteImage urls index, .error => some (s, nextDeletion urls index false)
  | .deleteDocument id, .ok => some
      ({ s with
          posts := Function.update s.posts id none
          history := Function.update s.history id none }, [])
  | .upload .., .error | .setData .., .error | .updateData .., .error | .getDocument .., .error
  | .deleteDocument .., .error => some (s, [])
  | _, _ => none

/-- The clients of the app over the two stores. -/
def app : Service App Call Op Reply := ⟨App.call, App.answer⟩

/-! ### The operations of each service -/

variable {op : Op}

theorem mem_addPost {currentUser : Option String} {p : Post} (h : op ∈ addPost currentUser p) :
    ∃ id, op = .setData id p := by
  unfold addPost at h
  split at h
  · exact ⟨_, List.mem_singleton.mp h⟩
  · exact absurd h List.not_mem_nil

theorem mem_modifyPost {i : Nat} {vm : PostVM} {data : Document}
    (h : op ∈ modifyPost i vm data) : ∃ id, op = .updateData i id (.edit data) := by
  unfold modifyPost at h
  split at h
  · split at h
    · exact ⟨_, List.mem_singleton.mp h⟩
    · exact absurd h List.not_mem_nil
  · exact absurd h List.not_mem_nil

theorem mem_likePost {i : Nat} {vm : PostVM} (h : op ∈ vm.likePost i) :
    ∃ id likerId, op = .updateData i id (.like likerId) := by
  unfold PostVM.likePost likePost at h
  split at h
  · split at h
    · split at h
      · exact ⟨_, _, List.mem_singleton.mp h⟩
      · exact absurd h List.not_mem_nil
    · exact absurd h List.not_mem_nil
  · exact absurd h List.not_mem_nil

theorem mem_unlikePost {i : Nat} {vm : PostVM} (h : op ∈ vm.unlikePost i) :
    ∃ id unlikerId, op = .updateData i id (.unlike unlikerId) := by
  unfold PostVM.unlikePost unlikePost at h
  split at h
  · split at h
    · split at h
      · exact ⟨_, _, List.mem_singleton.mp h⟩
      · exact absurd h List.not_mem_nil
    · exact absurd h List.not_mem_nil
  · exact absurd h List.not_mem_nil

theorem mem_deletePost {currentUser : Option String} {p : Post}
    (h : op ∈ deletePost currentUser p) : ∃ id, op = .deleteDocument id := by
  unfold deletePost at h
  split at h
  · split at h
    · exact ⟨_, List.mem_singleton.mp h⟩
    · exact absurd h List.not_mem_nil
  · exact absurd h List.not_mem_nil

theorem mem_startDeletion {currentUser : Option String} {urls : List URL}
    (h : op ∈ startDeletion currentUser urls) : ∃ index, op = .deleteImage urls index := by
  obtain ⟨index, -, rfl⟩ := List.mem_map.mp h
  exact ⟨index, rfl⟩

theorem mem_nextDeletion {urls : List URL} {index : Nat} {ok : Bool}
    (h : op ∈ nextDeletion urls index ok) : op = .deleteImage urls (index + 1) := by
  obtain ⟨i, hi, rfl⟩ := List.mem_map.mp h
  rw [(lt_of_mem_resumeAll hi).1]

/-! ### What a call can be -/

/-- **A call and what it does**: the state after it and the operations that it issues. -/
inductive Called (s : App) : Call → App → List Op → Prop where
  | submitted (currentUser : Option String) (form : PostForm) (images : List UIImage) (id : String)
      (creationDate : Int) (p : Post)
      (hp : formCompletion currentUser form id creationDate = some p) :
      Called s (.submit currentUser form images id creationDate) s
        (addPostAndImages s currentUser p images)
  | opened (currentUser : Option String) (id : String) (document : Document) (p : Post)
      (hdoc : s.posts id = some document) (hdecode : Post.decode id document = some p) :
      Called s (.openPost currentUser id)
        { s with vms := s.vms ++ [PostVM.init currentUser p] } []
  | filled (i : Nat) (form : PostForm) (vm : PostVM) (hvm : s.vms[i]? = some vm) :
      Called s (.fill i form) { s with vms := s.vms.set i (vm.fill form) } []
  | imageAdded (i : Nat) (image : UIImage) (vm : PostVM) (hvm : s.vms[i]? = some vm) :
      Called s (.addImage i image)
        { s with
          vms := s.vms.set i { vm with additionalImages := vm.additionalImages ++ [image] } } []
  | toggled (i : Nat) (url : URL) (vm : PostVM) (hvm : s.vms[i]? = some vm)
      (hurl : url ∈ vm.editImages) :
      Called s (.toggle i url) { s with vms := s.vms.set i (vm.toggle url) } []
  | imagesDeleted (i : Nat) (imagesToRetain deleted : List URL) (vm : PostVM)
      (hvm : s.vms[i]? = some vm)
      (hretain : PostVM.Enumerates imagesToRetain (vm.editImages.toFinset \ vm.selected))
      (hdeleted : PostVM.Enumerates deleted vm.selected) :
      Called s (.deleteImages i imagesToRetain deleted)
        { s with vms := s.vms.set i (vm.deleteImages imagesToRetain deleted) } []
  | saved (i : Nat) (vm : PostVM) (hvm : s.vms[i]? = some vm) (hshows : vm.showsEdit = true) :
      Called s (.save i) s (editPostAndImages s i vm)
  | liked (i : Nat) (vm : PostVM) : Called s (.like i) s (vm.likePost i)
  | unliked (i : Nat) (vm : PostVM) : Called s (.unlike i) s (vm.unlikePost i)
  | postDeleted (i : Nat) (vm : PostVM) :
      Called s (.deletePost i) s (deletePost vm.currentUser vm.post)

theorem editForm_eq_some {s s' : App} {i : Nat} {f : PostVM → Option PostVM} {new : List Op}
    (h : s.editForm i f = some (s', new)) : ∃ vm vm', s.vms[i]? = some vm ∧ f vm = some vm' ∧
      s' = { s with vms := s.vms.set i vm' } ∧ new = [] := by
  obtain ⟨vm, hvm, h⟩ := Option.bind_eq_some_iff.mp h
  split at h
  · obtain ⟨vm', hvm', heq⟩ := Option.map_eq_some_iff.mp h
    obtain ⟨rfl, rfl⟩ := Prod.mk.inj heq
    exact ⟨vm, vm', hvm, hvm', rfl, rfl⟩
  · exact absurd h (Option.some_ne_none _).symm

theorem called_of_call {s s' : App} {x : Call} {new : List Op} (h : s.call x = some (s', new)) :
    Called s x s' new := by
  cases x with
  | submit currentUser form images id creationDate =>
    obtain ⟨p, hp, heq⟩ := Option.map_eq_some_iff.mp h
    obtain ⟨rfl, rfl⟩ := Prod.mk.inj heq
    exact .submitted currentUser form images id creationDate p hp
  | openPost currentUser id =>
    obtain ⟨p, hp, heq⟩ := Option.map_eq_some_iff.mp h
    obtain ⟨rfl, rfl⟩ := Prod.mk.inj heq
    obtain ⟨document, hdoc, hdecode⟩ := Option.bind_eq_some_iff.mp hp
    exact .opened currentUser id document p hdoc hdecode
  | fill i form =>
    obtain ⟨vm, vm', hvm, hedit, rfl, rfl⟩ := editForm_eq_some h
    obtain rfl := Option.some.inj hedit
    exact .filled i form vm hvm
  | addImage i image =>
    obtain ⟨vm, vm', hvm, hedit, rfl, rfl⟩ := editForm_eq_some h
    obtain rfl := Option.some.inj hedit
    exact .imageAdded i image vm hvm
  | toggle i url =>
    obtain ⟨vm, vm', hvm, hedit, rfl, rfl⟩ := editForm_eq_some h
    obtain ⟨hurl, rfl⟩ := Option.ite_some_none_eq_some.mp hedit
    exact .toggled i url vm hvm hurl
  | deleteImages i imagesToRetain deleted =>
    obtain ⟨vm, vm', hvm, hedit, rfl, rfl⟩ := editForm_eq_some h
    obtain ⟨⟨hretain, hdeleted⟩, rfl⟩ := Option.ite_some_none_eq_some.mp hedit
    exact .imagesDeleted i imagesToRetain deleted vm hvm hretain hdeleted
  | save i =>
    obtain ⟨vm, hvm, h⟩ := Option.bind_eq_some_iff.mp h
    obtain ⟨hshows, heq⟩ := Option.ite_none_right_eq_some.mp h
    obtain ⟨rfl, rfl⟩ := Prod.mk.inj (Option.some.inj heq)
    exact .saved i vm hvm hshows
  | like i =>
    obtain ⟨vm, -, heq⟩ := Option.map_eq_some_iff.mp h
    obtain ⟨rfl, rfl⟩ := Prod.mk.inj heq
    exact .liked i vm
  | unlike i =>
    obtain ⟨vm, -, heq⟩ := Option.map_eq_some_iff.mp h
    obtain ⟨rfl, rfl⟩ := Prod.mk.inj heq
    exact .unliked i vm
  | deletePost i =>
    obtain ⟨vm, -, heq⟩ := Option.map_eq_some_iff.mp h
    obtain ⟨rfl, rfl⟩ := Prod.mk.inj heq
    exact .postDeleted i vm

/-! ### What an answer can be -/

/-- **An answer and what it leads to**: the state after it and the operations that
its handler issues. -/
inductive Answered (s : App) : Op → Reply → App → List Op → Prop where
  | failed (op : Op) (hop : ∀ urls index, op ≠ .deleteImage urls index) :
      Answered s op .error s []
  | uploaded (image : UIImage) (rest : List UIImage) (urls : List URL) (after : After)
      (url : URL) (hfresh : url ∉ s.issued) :
      Answered s (.upload image rest urls after) (.uploaded url)
        { s with objects := insert url s.objects, issued := insert url s.issued }
        (App.addImageHelper
          { s with objects := insert url s.objects, issued := insert url s.issued }
          (urls ++ [url]) after rest)
  | created (id : String) (p : Post) :
      Answered s (.setData id p) .ok
        { s with
          posts := Function.update s.posts id (some p.encode)
          history := Function.update s.history id (some (p.encode, [])) } []
  | updated (i : Nat) (id : String) (change : Change) (document : Document)
      (hdoc : s.posts id = some document) :
      Answered s (.updateData i id change) .ok
        { s with
          posts := Function.update s.posts id (some (change.commit document))
          history := Function.update s.history id
            ((s.history id).map fun h => (h.1, h.2 ++ [change])) } [.getDocument i id]
  | missing (i : Nat) (id : String) : Answered s (.getDocument i id) .ok s []
  | read (i : Nat) (id : String) (p : Post) :
      Answered s (.getDocument i id) .ok s [.response i p]
  | delivered (i : Nat) (p : Post) :
      Answered s (.response i p) .ok
        { s with vms := s.vms.modify i fun vm => { vm with post := p } } []
  | removed (urls : List URL) (index : Nat) :
      Answered s (.deleteImage urls index) .ok
        { s with objects := s.objects.filter fun url => urls[index]? ≠ some url }
        (nextDeletion urls index true)
  | kept (urls : List URL) (index : Nat) :
      Answered s (.deleteImage urls index) .error s (nextDeletion urls index false)
  | deleted (id : String) :
      Answered s (.deleteDocument id) .ok
        { s with
          posts := Function.update s.posts id none
          history := Function.update s.history id none } []

theorem answered_of_answer {s s' : App} {r : Reply} {new : List Op}
    (h : s.answer op r = some (s', new)) : Answered s op r s' new := by
  cases op with
  | upload image rest urls after =>
    cases r with
    | ok => exact absurd h (by simp [App.answer])
    | error =>
      obtain ⟨rfl, rfl⟩ := Prod.mk.inj (Option.some.inj h)
      exact .failed _ (by simp)
    | uploaded url =>
      simp only [App.answer] at h
      split at h
      · exact absurd h (Option.some_ne_none _).symm
      · obtain ⟨rfl, rfl⟩ := Prod.mk.inj (Option.some.inj h)
        exact .uploaded image rest urls after url ‹_›
  | setData id p =>
    cases r with
    | ok =>
      obtain ⟨rfl, rfl⟩ := Prod.mk.inj (Option.some.inj h)
      exact .created id p
    | error =>
      obtain ⟨rfl, rfl⟩ := Prod.mk.inj (Option.some.inj h)
      exact .failed _ (by simp)
    | uploaded url => exact absurd h (by simp [App.answer])
  | updateData i id change =>
    cases r with
    | ok =>
      obtain ⟨document, hdoc, heq⟩ := Option.map_eq_some_iff.mp h
      obtain ⟨rfl, rfl⟩ := Prod.mk.inj heq
      exact .updated i id change document hdoc
    | error =>
      obtain ⟨rfl, rfl⟩ := Prod.mk.inj (Option.some.inj h)
      exact .failed _ (by simp)
    | uploaded url => exact absurd h (by simp [App.answer])
  | getDocument i id =>
    cases r with
    | ok =>
      obtain ⟨rfl, rfl⟩ := Prod.mk.inj (Option.some.inj h)
      cases hread : (s.posts id).bind (Post.decode id) with
      | none => exact .missing i id
      | some p => exact .read i id p
    | error =>
      obtain ⟨rfl, rfl⟩ := Prod.mk.inj (Option.some.inj h)
      exact .failed _ (by simp)
    | uploaded url => exact absurd h (by simp [App.answer])
  | response i p =>
    cases r with
    | ok =>
      obtain ⟨rfl, rfl⟩ := Prod.mk.inj (Option.some.inj h)
      exact .delivered i p
    | error => exact absurd h (by simp [App.answer])
    | uploaded url => exact absurd h (by simp [App.answer])
  | deleteImage urls index =>
    cases r with
    | ok =>
      obtain ⟨rfl, rfl⟩ := Prod.mk.inj (Option.some.inj h)
      exact .removed urls index
    | error =>
      obtain ⟨rfl, rfl⟩ := Prod.mk.inj (Option.some.inj h)
      exact .kept urls index
    | uploaded url => exact absurd h (by simp [App.answer])
  | deleteDocument id =>
    cases r with
    | ok =>
      obtain ⟨rfl, rfl⟩ := Prod.mk.inj (Option.some.inj h)
      exact .deleted id
    | error =>
      obtain ⟨rfl, rfl⟩ := Prod.mk.inj (Option.some.inj h)
      exact .failed _ (by simp)
    | uploaded url => exact absurd h (by simp [App.answer])

end Subtle.Feed
