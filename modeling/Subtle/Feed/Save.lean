import Subtle.Feed.BothSaves

/-!
# What a save of the edit form does

The callbacks of a save run to the end, and no backend call fails.

* `saves`: the app with the images uploaded and the objects deleted by the save.
* `save_done`: **what a save comes to**, from any state of the app.
* `removed_deleted_iff`: **a save deletes the pictures removed in its session exactly when no
  image is waiting to be added and nothing else to be deleted, or no picture was removed**.
* `saved_twice_iff`: **a second save does nothing exactly when the first had no image to
  add or delete and the stored post was not changed behind the form**.
-/

namespace Subtle.Feed

open Subtle.Firestore Subtle.Lib Subtle.Storage

/-- The images uploaded, with their URLs, and the objects deleted. -/
structure SaveLog where
  uploaded : List (UIImage × URL)
  deleted : List URL
  deriving DecidableEq

/-- Nothing fails. -/
def SaveLog.noteAnswer (log : SaveLog) (_ : App) : Op → Reply → Option SaveLog
  | _, .error => none
  | .upload image _ _ _, .uploaded url =>
      some { log with uploaded := log.uploaded ++ [(image, url)] }
  | .deleteImage urls index, .ok => some { log with deleted := log.deleted ++ urls[index]?.toList }
  | _, _ => some log

/-- The app with what is uploaded and deleted. -/
def saves : Service (App × SaveLog) Call Op Reply :=
  app.watched id id (fun log _ _ => some log) SaveLog.noteAnswer

/-- The form at `i` is saved in the state `s`, and once all callbacks of the save have run
the state is `s'`. -/
def Saves (i : Nat) (s : App) (answers : List (Nat × Reply)) (s' : App) (log : SaveLog) : Prop :=
  saves.machine.run ⟨(s, ⟨[], []⟩), []⟩
    (.call (.save i) :: answers.map fun answer => .answer answer.1 answer.2) =
      some ⟨(s', log), []⟩

/-! ### What a save comes to -/

namespace PostVM

/-- The objects that a save deletes. -/
def toDelete (vm : PostVM) : List URL := if vm.additionalImages = [] then vm.imagesToDelete else []

/-- The stored posts after the save. -/
def savedPosts (vm : PostVM) (posts : String → Option Document) (uploads : List (UIImage × URL)) :
    String → Option Document :=
  match vm.post.id with
  | some id =>
      Function.update posts id ((posts id).map fun document =>
        document.overwrite (vm.updateData uploads))
  | none => posts

/-- The form shows the post as it is stored, if it can be read. -/
def reread (vm : PostVM) (posts : String → Option Document) : PostVM :=
  match vm.post.id.bind fun id => (posts id).bind (Post.decode id) with
  | some post => { vm with post := post }
  | none => vm

end PostVM

/-- What a save of `vm` in the state `s` comes to. -/
structure SaveDone (i : Nat) (vm : PostVM) (s s' : App) (log : SaveLog) : Prop where
  uploaded : log.uploaded.map Prod.fst = vm.additionalImages
  deleted : log.deleted = vm.toDelete
  posts : s'.posts = vm.savedPosts s.posts log.uploaded
  form : s'.vms[i]? = some (vm.reread s'.posts)

/-! ### The two chains of operations -/

/-- The deletions made so far and the next one. -/
inductive Deleting (urls : List URL) : List URL → List Op → Prop
  | next (index : Nat) (hindex : index < urls.length) :
      Deleting urls (urls.take index) [.deleteImage urls index]
  | done : Deleting urls urls []

/-- The write of the post, with the operation that waits for an answer. -/
inductive Writing (i : Nat) (vm : PostVM) (s₀ s : App) (uploads : List (UIImage × URL)) :
    List Op → Prop
  | upload (image : UIImage) (rest : List UIImage)
      (himages : uploads.map Prod.fst ++ image :: rest = vm.additionalImages)
      (hposts : s.posts = s₀.posts) (hvm : s.vms[i]? = some vm) :
      Writing i vm s₀ s uploads
        [.upload image rest (uploads.map Prod.snd) (.modifyPost i vm.editParams vm.editImages)]
  | update (id : String) (hid : vm.post.id = some id)
      (himages : uploads.map Prod.fst = vm.additionalImages)
      (hposts : s.posts = s₀.posts) (hvm : s.vms[i]? = some vm) :
      Writing i vm s₀ s uploads [.updateData i id (.edit (vm.updateData uploads))]
  | read (id : String) (hid : vm.post.id = some id)
      (himages : uploads.map Prod.fst = vm.additionalImages)
      (hposts : s.posts = vm.savedPosts s₀.posts uploads) (hvm : s.vms[i]? = some vm) :
      Writing i vm s₀ s uploads [.getDocument i id]
  | response (id : String) (post : Post) (hid : vm.post.id = some id)
      (himages : uploads.map Prod.fst = vm.additionalImages)
      (hposts : s.posts = vm.savedPosts s₀.posts uploads) (hvm : s.vms[i]? = some vm)
      (hpost : (s.posts id).bind (Post.decode id) = some post) :
      Writing i vm s₀ s uploads [.response i post]
  | done (himages : uploads.map Prod.fst = vm.additionalImages)
      (hposts : s.posts = vm.savedPosts s₀.posts uploads)
      (hform : s.vms[i]? = some (vm.reread s.posts)) : Writing i vm s₀ s uploads []

/-- The write and the deletions go on independently. -/
def Saving (i : Nat) (vm : PostVM) (s₀ : App) (p : App × SaveLog) (ops : List Op) : Prop :=
  ∃ writes deletions, ops.Perm (writes ++ deletions) ∧
    Writing i vm s₀ p.1 p.2.uploaded writes ∧ Deleting vm.toDelete p.2.deleted deletions

variable {i : Nat} {vm : PostVM} {s₀ s s' : App} {log log' : SaveLog}
  {uploads : List (UIImage × URL)} {urls : List URL} {pre post new ops writes deletions : List Op}
  {op : Op} {r : Reply}

theorem deleting_helper {index : Nat} (hindex : index ≤ urls.length) (st : DeleteRun) :
    Deleting urls (urls.take index)
      ((deleteImageHelper urls index st).2.map (.deleteImage urls)) := by
  unfold deleteImageHelper
  split
  · exact .next index ‹_›
  · rw [List.take_of_length_le (by omega)]
    exact .done

theorem deleting_start (userId : String) (urls : List URL) :
    Deleting urls [] (startDeletion (some userId) urls) := deleting_helper (Nat.zero_le _) _

theorem deleting_next {index : Nat} (hindex : index < urls.length) :
    Deleting urls (urls.take index ++ urls[index]?.toList) (nextDeletion urls index true) := by
  have hnext : nextDeletion urls index true =
      (deleteImageHelper urls (index + 1) ⟨[], [true], [], [(index, true)]⟩).2.map
        (.deleteImage urls) := by
    simp [nextDeletion, answerDelete, BatchUploader.delete, resumeAll, resume]
  rw [hnext, ← List.take_add_one]
  exact deleting_helper hindex _

theorem currentUser_of_showsEdit (hshows : vm.showsEdit = true) :
    vm.currentUser = some vm.post.posterId := by
  simpa [PostVM.showsEdit] using hshows

theorem savedPosts_of_none (hid : vm.post.id = none) (posts : String → Option Document) :
    vm.savedPosts posts uploads = posts := by
  rw [PostVM.savedPosts, hid]

theorem savedPosts_of_some {id : String} (hid : vm.post.id = some id)
    (posts : String → Option Document) :
    vm.savedPosts posts uploads = Function.update posts id ((posts id).map fun document =>
      document.overwrite (vm.updateData uploads)) := by
  rw [PostVM.savedPosts, hid]

theorem reread_of_none (hid : vm.post.id = none) (posts : String → Option Document) :
    vm.reread posts = vm := by
  rw [PostVM.reread, hid]
  rfl

theorem reread_of_read {id : String} (hid : vm.post.id = some id)
    (posts : String → Option Document) :
    vm.reread posts = ((posts id).bind (Post.decode id)).elim vm fun post =>
      { vm with post := post } := by
  rw [PostVM.reread, hid, Option.bind_some]
  cases (posts id).bind (Post.decode id) <;> rfl

theorem writing_modifyPost (hshows : vm.showsEdit = true)
    (himages : uploads.map Prod.fst = vm.additionalImages) (hposts : s.posts = s₀.posts)
    (hvm : s.vms[i]? = some vm) :
    Writing i vm s₀ s uploads (modifyPost i vm (vm.updateData uploads)) := by
  rw [modifyPost, currentUser_of_showsEdit hshows]
  cases hid : vm.post.id with
  | none =>
    refine .done himages ?_ ?_
    · rw [hposts, savedPosts_of_none hid]
    · rw [reread_of_none hid, hvm]
  | some id =>
    show Writing i vm s₀ s uploads (if _ then _ else _)
    rw [if_pos rfl]
    exact .update id hid himages hposts hvm

theorem writing_addImageHelper (hshows : vm.showsEdit = true) {rest : List UIImage}
    (himages : uploads.map Prod.fst ++ rest = vm.additionalImages) (hposts : s.posts = s₀.posts)
    (hvm : s.vms[i]? = some vm) :
    Writing i vm s₀ s uploads (s.addImageHelper (uploads.map Prod.snd)
      (.modifyPost i vm.editParams vm.editImages) rest) := by
  cases rest with
  | cons image rest => exact .upload image rest himages hposts hvm
  | nil =>
    rw [List.append_nil] at himages
    simp only [App.addImageHelper, App.uploaded, hvm]
    exact writing_modifyPost hshows himages hposts hvm

theorem saving_start (hvm : s.vms[i]? = some vm) (hshows : vm.showsEdit = true) :
    Saving i vm s (s, ⟨[], []⟩) (editPostAndImages s i vm) := by
  have huser := currentUser_of_showsEdit hshows
  unfold editPostAndImages
  split
  · rename_i hsome
    refine ⟨_, [], List.Perm.of_eq (List.append_nil _).symm, ?_, ?_⟩
    · rw [huser]
      exact @writing_addImageHelper i vm s s [] hshows _ rfl rfl hvm
    · rw [PostVM.toDelete, if_neg hsome]
      exact .done
  · rename_i hnone
    have hnone : vm.additionalImages = [] := not_not.mp hnone
    refine ⟨_, _, List.Perm.refl _, ?_, ?_⟩
    · have hdata : PostVM.withPictures vm.editParams vm.editImages = vm.updateData [] := by
        rw [PostVM.updateData, List.map_nil, List.append_nil]
      rw [hdata]
      exact writing_modifyPost hshows hnone.symm rfl hvm
    · rw [PostVM.toDelete, if_pos hnone, huser]
      exact deleting_start _ _

/-- The write does not depend on the objects. -/
theorem Writing.frame (h : Writing i vm s₀ s uploads ops) (hposts : s'.posts = s.posts)
    (hvms : s'.vms = s.vms) : Writing i vm s₀ s' uploads ops := by
  cases h with
  | upload image rest himages hp hvm =>
    exact .upload image rest himages (hposts.trans hp) (hvms ▸ hvm)
  | update id hid himages hp hvm => exact .update id hid himages (hposts.trans hp) (hvms ▸ hvm)
  | read id hid himages hp hvm => exact .read id hid himages (hposts.trans hp) (hvms ▸ hvm)
  | response id post hid himages hp hvm hpost =>
    exact .response id post hid himages (hposts.trans hp) (hvms ▸ hvm) (hposts ▸ hpost)
  | done himages hp hform => exact .done himages (hposts.trans hp) (hvms ▸ hposts ▸ hform)

theorem writing_answer (hshows : vm.showsEdit = true) (h : Writing i vm s₀ s log.uploaded [op])
    (hnote : log.noteAnswer s op r = some log') (hanswer : s.answer op r = some (s', new)) :
    Writing i vm s₀ s' log'.uploaded new ∧ log'.deleted = log.deleted := by
  cases h with
  | upload image rest himages hposts hvm =>
    cases r with
    | ok => exact absurd hanswer (by simp [App.answer])
    | error => exact absurd hnote (Option.some_ne_none _).symm
    | uploaded url =>
      obtain rfl := Option.some.inj hnote
      simp only [App.answer] at hanswer
      split at hanswer
      · exact absurd hanswer (Option.some_ne_none _).symm
      · obtain ⟨rfl, rfl⟩ := Prod.mk.inj (Option.some.inj hanswer)
        refine ⟨?_, rfl⟩
        have hurls : log.uploaded.map Prod.snd ++ [url] =
            (log.uploaded ++ [(image, url)]).map Prod.snd := by
          rw [List.map_append]
          rfl
        rw [hurls]
        refine writing_addImageHelper hshows ?_ hposts hvm
        rw [List.map_append, List.append_assoc]
        exact himages
  | update id hid himages hposts hvm =>
    cases r with
    | ok =>
      obtain rfl := Option.some.inj hnote
      obtain ⟨document, hdoc, heq⟩ := Option.map_eq_some_iff.mp hanswer
      obtain ⟨rfl, rfl⟩ := Prod.mk.inj heq
      refine ⟨.read id hid himages ?_ hvm, rfl⟩
      rw [savedPosts_of_some hid, ← hposts, hdoc]
      rfl
    | error => exact absurd hnote (Option.some_ne_none _).symm
    | uploaded url => exact absurd hanswer (by simp [App.answer])
  | read id hid himages hposts hvm =>
    cases r with
    | ok =>
      obtain rfl := Option.some.inj hnote
      obtain ⟨rfl, rfl⟩ := Prod.mk.inj (Option.some.inj hanswer)
      refine ⟨?_, rfl⟩
      cases hpost : (s.posts id).bind (Post.decode id) with
      | none =>
        refine .done himages hposts ?_
        rw [reread_of_read hid, hpost]
        exact hvm
      | some post => exact .response id post hid himages hposts hvm hpost
    | error => exact absurd hnote (Option.some_ne_none _).symm
    | uploaded url => exact absurd hanswer (by simp [App.answer])
  | response id post hid himages hposts hvm hpost =>
    cases r with
    | ok =>
      obtain rfl := Option.some.inj hnote
      obtain ⟨rfl, rfl⟩ := Prod.mk.inj (Option.some.inj hanswer)
      refine ⟨.done himages hposts ?_, rfl⟩
      rw [reread_of_read hid, hpost, List.getElem?_modify_eq, hvm]
      rfl
    | error => exact absurd hnote (Option.some_ne_none _).symm
    | uploaded url => exact absurd hanswer (by simp [App.answer])

theorem deleting_answer (h : Deleting urls log.deleted [op])
    (hnote : log.noteAnswer s op r = some log') (hanswer : s.answer op r = some (s', new)) :
    Deleting urls log'.deleted new ∧ log'.uploaded = log.uploaded ∧ s'.posts = s.posts ∧
      s'.vms = s.vms := by
  generalize hdeleted : log.deleted = deleted at h
  cases h with
  | next index hindex =>
    cases r with
    | ok =>
      obtain rfl := Option.some.inj hnote
      obtain ⟨rfl, rfl⟩ := Prod.mk.inj (Option.some.inj hanswer)
      refine ⟨?_, rfl, rfl, rfl⟩
      simp only [hdeleted]
      exact deleting_next hindex
    | error => exact absurd hnote (Option.some_ne_none _).symm
    | uploaded url => exact absurd hanswer (by simp [App.answer])

/-- Both chains have at most one operation outstanding. -/
theorem Writing.eq_singleton (h : Writing i vm s₀ s uploads ops) (hop : op ∈ ops) :
    ops = [op] := by
  cases h with
  | done => exact absurd hop List.not_mem_nil
  | _ => rw [List.mem_singleton.mp hop]

theorem Deleting.eq_singleton {deleted : List URL} (h : Deleting urls deleted ops)
    (hop : op ∈ ops) : ops = [op] := by
  cases h with
  | done => exact absurd hop List.not_mem_nil
  | next index hindex => rw [List.mem_singleton.mp hop]

/-- **An answer carries one of the two chains on.** -/
theorem saving_answer (hshows : vm.showsEdit = true)
    (h : Saving i vm s₀ (s, log) (pre ++ op :: post))
    (hnote : log.noteAnswer s op r = some log') (hanswer : s.answer op r = some (s', new)) :
    Saving i vm s₀ (s', log') (pre ++ post ++ new) := by
  obtain ⟨writes, deletions, hperm, hwriting, hdeleting⟩ := h
  have hmem : op ∈ writes ++ deletions := hperm.mem_iff.mp (by simp)
  have hrest : (op :: (pre ++ post)).Perm (writes ++ deletions) := List.perm_middle.symm.trans hperm
  rcases List.mem_append.mp hmem with hop | hop
  · obtain rfl := hwriting.eq_singleton hop
    obtain ⟨hwriting', hdeleted⟩ := writing_answer hshows hwriting hnote hanswer
    have hleft : (pre ++ post).Perm deletions := hrest.cons_inv
    refine ⟨new, deletions, (hleft.append_right new).trans List.perm_append_comm, hwriting', ?_⟩
    rw [hdeleted]
    exact hdeleting
  · obtain rfl := hdeleting.eq_singleton hop
    obtain ⟨hdeleting', huploaded, hposts, hvms⟩ := deleting_answer hdeleting hnote hanswer
    have hleft : (pre ++ post).Perm writes := (hrest.trans List.perm_append_comm).cons_inv
    refine ⟨writes, new, hleft.append_right new, ?_, hdeleting'⟩
    rw [huploaded]
    exact hwriting.frame hposts hvms

/-- **What a save comes to.** -/
theorem save_done {answers : List (Nat × Reply)} (hvm : s.vms[i]? = some vm)
    (hsave : Saves i s answers s' log) : SaveDone i vm s s' log := by
  obtain ⟨⟨⟨s₁, log₁⟩, ops⟩, hcall, hrun⟩ := Machine.run_cons.mp hsave
  obtain ⟨hshows, rfl, rfl, rfl⟩ : vm.showsEdit = true ∧ s = s₁ ∧
      ⟨[], []⟩ = log₁ ∧ editPostAndImages s i vm = ops := by
    obtain ⟨⟨⟨t, g⟩, new⟩, hstep, heq⟩ := Option.map_eq_some_iff.mp hcall
    obtain ⟨hnote, hstep⟩ := Service.watched_call hstep
    obtain ⟨w, hw, hstep⟩ := Option.bind_eq_some_iff.mp hstep
    obtain rfl := Option.some.inj (hvm.symm.trans hw)
    obtain ⟨hshows, hstep⟩ := Option.ite_none_right_eq_some.mp hstep
    obtain ⟨rfl, rfl⟩ := Prod.mk.inj (Option.some.inj hstep)
    obtain rfl := Option.some.inj hnote
    simp only [Config.mk.injEq, Prod.mk.injEq, List.nil_append] at heq
    exact ⟨hshows, heq.1.1, heq.1.2, heq.2⟩
  have hanswers : ∀ e ∈ answers.map fun answer => Event.answer answer.1 answer.2,
      ∀ x : Call, e ≠ Event.call x := by
    intro e he x
    obtain ⟨answer, -, rfl⟩ := List.mem_map.mp he
    exact fun heq => nomatch heq
  have hdone : Saving i vm s (s', log) [] := by
    refine Service.run_inv (I := Saving i vm s) ?_ ?_ (saving_start hvm hshows)
      (Machine.along_of_mem hanswers _) hrun
    · intro p ops x p' new _ hno _
      exact absurd rfl (hno x)
    · rintro ⟨s, log⟩ pre op post r ⟨s', log'⟩ new h - hanswer
      obtain ⟨hnote, hanswer⟩ := Service.watched_answer hanswer
      exact saving_answer hshows h hnote hanswer
  obtain ⟨writes, deletions, hperm, hwriting, hdeleting⟩ := hdone
  obtain ⟨rfl, rfl⟩ := List.append_eq_nil_iff.mp (List.nil_perm.mp hperm)
  generalize hlog : log.deleted = deleted at hdeleting
  cases hwriting with
  | done himages hposts hform =>
    cases hdeleting with
    | done => exact ⟨himages, hlog, hposts, hform⟩

/-! ### The removed pictures -/

/-- **The save of an edit session deletes the pictures removed in the session exactly when no
image is waiting to be added and nothing was left over to be deleted, or one is waiting and no
picture was removed.**  The session starts from any state of the form. -/
theorem removed_deleted_iff {vm₀ : PostVM} {actions : List EditAction}
    {answers : List (Nat × Reply)} (hedit : editing.run vm₀ actions = some vm)
    (hvm : s.vms[i]? = some vm) (hsave : Saves i s answers s' log) :
    (∀ url, url ∈ log.deleted ↔ url ∈ removedIn actions) ↔
      (vm.additionalImages = [] ∧ ∀ url ∈ vm₀.imagesToDelete, url ∈ removedIn actions) ∨
        (vm.additionalImages ≠ [] ∧ removedIn actions = []) := by
  simp only [(save_done hvm hsave).deleted, PostVM.toDelete, imagesToDelete_run hedit]
  by_cases hnone : vm.additionalImages = []
  · have hadd : ¬ (vm.additionalImages ≠ [] ∧ removedIn actions = []) := fun h => h.1 hnone
    simp only [if_pos hnone, or_iff_left hadd, List.mem_append, or_iff_right_iff_imp,
      and_iff_right hnone]
  · have hnot : ¬ (vm.additionalImages = [] ∧ ∀ url ∈ vm₀.imagesToDelete,
        url ∈ removedIn actions) := fun h => hnone h.1
    rw [if_neg hnone, or_iff_right hnot, and_iff_right hnone, List.eq_nil_iff_forall_not_mem]
    exact forall_congr' fun url => by simp [List.not_mem_nil]

/-- The form of Ann's post at the start. -/
def annsForm : PostVM := PostVM.init (some "ann") annsPost

/-- Ann's device with one form open. -/
def annsDevice (vm : PostVM) : App := { annsStore with vms := [vm] }

/-- Ann removes a picture. -/
def annsRemoval : List EditAction := [.toggle "a", .deleteImages ["b"] ["a"]]

theorem removed_deleted_iff_example : ∃ s' log,
    Saves 0 (annsDevice ((annsForm.toggle "a").deleteImages ["b"] ["a"]))
      [(0, .ok), (0, .ok), (0, .ok), (0, .ok)] s' log ∧
    ∀ url, url ∈ log.deleted ↔ url ∈ removedIn annsRemoval := by
  have hedit : editing.run annsForm annsRemoval =
      some ((annsForm.toggle "a").deleteImages ["b"] ["a"]) := by
    decide +kernel
  have hsave : ∃ s' log, Saves 0 (annsDevice ((annsForm.toggle "a").deleteImages ["b"] ["a"]))
      [(0, .ok), (0, .ok), (0, .ok), (0, .ok)] s' log := ⟨_, _, rfl⟩
  obtain ⟨s', log, hsave⟩ := hsave
  exact ⟨s', log, hsave, (removed_deleted_iff hedit rfl hsave).mpr
    (Or.inl ⟨rfl, List.forall_mem_nil _⟩)⟩

/-- Ann removes a picture and adds another one, and the removed one is not deleted. -/
theorem removed_not_deleted : ¬ ∀ (vm₀ vm : PostVM) (actions : List EditAction) (i : Nat)
    (s s' : App) (answers : List (Nat × Reply)) (log : SaveLog),
      editing.run vm₀ actions = some vm → s.vms[i]? = some vm → Saves i s answers s' log →
        ∀ url, url ∈ log.deleted ↔ url ∈ removedIn actions := by
  intro h
  let vm := { (annsForm.toggle "a").deleteImages ["b"] ["a"] with additionalImages := ["x"] }
  have hedit : editing.run annsForm (annsRemoval ++ [.addImage "x"]) = some vm := by
    decide +kernel
  have hsave : ∃ s' log, Saves 0 (annsDevice vm)
      [(0, .uploaded "u"), (0, .ok), (0, .ok), (0, .ok)] s' log ∧ log.deleted = [] :=
    ⟨_, _, rfl, rfl⟩
  obtain ⟨s', log, hsave, hdeleted⟩ := hsave
  have hmem := (h annsForm vm _ 0 _ s' _ log hedit rfl hsave "a").mpr (by decide)
  rw [hdeleted] at hmem
  exact absurd hmem List.not_mem_nil

/-! ### A second save -/

theorem encode_of_decode {id : String} {document : Document} {post : Post}
    (h : Post.decode id document = some post) {k : String} (hk : k ∈ textFields) :
    post.encode k = document k := by
  unfold Post.decode at h
  obtain ⟨_, -, h⟩ := Option.bind_eq_some_iff.mp h
  obtain ⟨posterId, -, h⟩ := Option.bind_eq_some_iff.mp h
  obtain ⟨name, hname, h⟩ := Option.bind_eq_some_iff.mp h
  obtain ⟨university, huniversity, h⟩ := Option.bind_eq_some_iff.mp h
  obtain ⟨location, hlocation, h⟩ := Option.bind_eq_some_iff.mp h
  obtain ⟨birthday, hbirthday, h⟩ := Option.bind_eq_some_iff.mp h
  obtain ⟨text, htext, h⟩ := Option.bind_eq_some_iff.mp h
  obtain ⟨likes, -, h⟩ := Option.bind_eq_some_iff.mp h
  obtain ⟨tags, htags, h⟩ := Option.bind_eq_some_iff.mp h
  iterate 4 obtain ⟨_, -, h⟩ := Option.bind_eq_some_iff.mp h
  obtain rfl := Option.some.inj h
  have hread : ∀ {α : Type} {field : String} {f : Value → Option α} {g : α → Value} {x : α},
      (∀ {v x}, f v = some x → v = g x) → (document field).bind f = some x →
        some (g x) = document field := by
    intro α field f g x hfg hx
    obtain ⟨v, hv, hvx⟩ := Option.bind_eq_some_iff.mp hx
    rw [hv, hfg hvx]
  simp only [textFields, List.mem_cons, List.not_mem_nil, or_false] at hk
  rcases hk with rfl | rfl | rfl | rfl | rfl | rfl
  · exact hread Value.asString_eq_some hname
  · exact hread Value.asTimestamp_eq_some hbirthday
  · exact hread Value.asString_eq_some huniversity
  · exact hread Value.asString_eq_some hlocation
  · exact hread Value.asString_eq_some htext
  · exact hread Value.asStrings_eq_some htags

namespace PostVM

/-- Where the form has the value of the post that it shows, so has the stored post, unless
it cannot be read. -/
def UpToDate (vm : PostVM) (posts : String → Option Document) : Prop :=
  ∀ id document, vm.post.id = some id → posts id = some document →
    Post.decode id (document.overwrite (vm.updateData [])) ≠ none →
      ∀ k ∈ textFields, ¬ vm.ChangesField vm.post k → document k = vm.formValues k

theorem updateData_of_other {k : String} (htext : k ∉ textFields) (hpictures : k ≠ "pictures") :
    vm.updateData uploads k = none := by
  rw [updateData, withPictures_of_ne hpictures, editParams_of_not_editable]
  intro hk
  rcases List.mem_append.mp (show k ∈ textFields ++ ["pictures"] from hk) with hk | hk
  · exact htext hk
  · exact hpictures (List.mem_singleton.mp hk)

/-- The update of the form that shows the updated post changes nothing more exactly when
the updated post has every value of the form. -/
theorem overwrite_again_iff {id : String} {document : Document} {post : Post}
    (hread : Post.decode id (document.overwrite (vm.updateData [])) = some post) :
    (document.overwrite (vm.updateData [])).overwrite ({ vm with post := post }.updateData []) =
        document.overwrite (vm.updateData []) ↔
      ∀ k ∈ textFields, document.overwrite (vm.updateData []) k = vm.formValues k := by
  rw [Record.overwrite_eq_self_iff]
  constructor
  · intro h k hk
    rw [← encode_of_decode hread hk]
    by_contra hne
    have hchanges : { vm with post := post }.ChangesField post k := fun heq => hne heq.symm
    rcases h k with hnone | hsame
    · rw [updateData_of_changes rfl hk hchanges] at hnone
      exact formValues_ne_none hk hnone
    · rw [updateData_of_changes rfl hk hchanges, ← encode_of_decode hread hk] at hsame
      exact hchanges hsame
  · intro h k
    by_cases hk : k ∈ textFields
    · left
      refine updateData_of_not_changes rfl hk (not_not.mpr ?_)
      rw [encode_of_decode hread hk, h k hk]
      rfl
    · by_cases hpictures : k = "pictures"
      · right
        subst hpictures
        exact (Record.overwrite_of_some (assign_self _ _ _) document).symm
      · exact Or.inl (updateData_of_other hk hpictures)

theorem updated_iff {document : Document} :
    (∀ k ∈ textFields, document.overwrite (vm.updateData []) k = vm.formValues k) ↔
      ∀ k ∈ textFields, ¬ vm.ChangesField vm.post k → document k = vm.formValues k := by
  refine forall₂_congr fun k hk => ?_
  by_cases hchanges : vm.ChangesField vm.post k
  · exact iff_of_true (overwrite_of_changes rfl hk hchanges document) fun hnot =>
      absurd hchanges hnot
  · rw [Record.overwrite_of_none (updateData_of_not_changes rfl hk hchanges)]
    exact ⟨fun h _ => h, fun h => h hchanges⟩

theorem upToDate_iff {id : String} {document : Document} {posts : String → Option Document}
    (hid : vm.post.id = some id) (hdoc : posts id = some document) : vm.UpToDate posts ↔
      (Post.decode id (document.overwrite (vm.updateData [])) ≠ none →
        ∀ k ∈ textFields, ¬ vm.ChangesField vm.post k → document k = vm.formValues k) := by
  constructor
  · exact fun h => h id document hid hdoc
  · intro h id' document' hid' hdoc'
    obtain rfl := Option.some.inj (hid.symm.trans hid')
    obtain rfl := Option.some.inj (hdoc.symm.trans hdoc')
    exact h

/-- **Writing the same form again changes nothing exactly when it is up to date.** -/
theorem savedPosts_again_iff (posts : String → Option Document) :
    (vm.reread (vm.savedPosts posts [])).savedPosts (vm.savedPosts posts []) [] =
      vm.savedPosts posts [] ↔ vm.UpToDate posts := by
  cases hid : vm.post.id with
  | none =>
    rw [reread_of_none hid, savedPosts_of_none hid, savedPosts_of_none hid]
    refine iff_of_true rfl ?_
    intro id document hsome
    exact absurd (hid.symm.trans hsome) (Option.some_ne_none _).symm
  | some id =>
    have hstored : vm.savedPosts posts [] id = (posts id).map fun document =>
        document.overwrite (vm.updateData []) := by
      rw [savedPosts_of_some hid, Function.update_self]
    have hform := reread_of_read hid (vm.savedPosts posts [])
    rw [hstored] at hform
    cases hdoc : posts id with
    | none =>
      rw [hdoc] at hform hstored
      rw [hform, Option.map_none, Option.bind_none, Option.elim_none, savedPosts_of_some hid,
        Function.update_eq_self_iff, hstored]
      refine iff_of_true rfl ?_
      intro id' document hid' hdoc'
      obtain rfl := Option.some.inj (hid.symm.trans hid')
      exact absurd (hdoc.symm.trans hdoc') (Option.some_ne_none _).symm
    | some document =>
      rw [hdoc] at hform hstored
      rw [Option.map_some, Option.bind_some] at hform
      rw [upToDate_iff hid hdoc]
      cases hread : Post.decode id (document.overwrite (vm.updateData [])) with
      | none =>
        rw [hread, Option.elim_none] at hform
        rw [hform, savedPosts_of_some hid (vm.savedPosts posts []), Function.update_eq_self_iff,
          hstored, Option.map_some, Option.map_some, Record.overwrite_overwrite]
        exact iff_of_true rfl fun h => absurd rfl h
      | some post =>
        rw [hread, Option.elim_some] at hform
        rw [hform, @savedPosts_of_some { vm with post := post } [] id (id_of_decode hread),
          Function.update_eq_self_iff, hstored, Option.map_some, Option.map_some,
          Option.some.injEq, overwrite_again_iff hread, updated_iff]
        exact ⟨fun h _ => h, fun h => h (Option.some_ne_none _)⟩

end PostVM

theorem reread_fields (vm : PostVM) (posts : String → Option Document) :
    (vm.reread posts).additionalImages = vm.additionalImages ∧
      (vm.reread posts).imagesToDelete = vm.imagesToDelete := by
  unfold PostVM.reread
  split
  · exact ⟨rfl, rfl⟩
  · exact ⟨rfl, rfl⟩

/-- **A second save does nothing exactly when the form has no image to add or to delete and
is up to date.** -/
theorem saved_twice_iff {s₁ s₂ : App} {answers answers' : List (Nat × Reply)}
    {log₁ log₂ : SaveLog} (hvm : s.vms[i]? = some vm) (hfirst : Saves i s answers s₁ log₁)
    (hsecond : Saves i s₁ answers' s₂ log₂) :
    (s₂.posts = s₁.posts ∧ log₂.uploaded = [] ∧ log₂.deleted = []) ↔
      vm.additionalImages = [] ∧ vm.imagesToDelete = [] ∧ vm.UpToDate s.posts := by
  have h₁ := save_done hvm hfirst
  have h₂ := save_done h₁.form hsecond
  obtain ⟨hadd, hdelete⟩ := reread_fields vm s₁.posts
  have huploaded : log₂.uploaded = [] ↔ vm.additionalImages = [] := by
    rw [← hadd, ← h₂.uploaded, List.map_eq_nil_iff]
  have hdeleted : vm.additionalImages = [] → (log₂.deleted = [] ↔ vm.imagesToDelete = []) := by
    intro hnone
    rw [h₂.deleted, PostVM.toDelete, hadd, hdelete, if_pos hnone]
  have hposts : vm.additionalImages = [] → (s₂.posts = s₁.posts ↔ vm.UpToDate s.posts) := by
    intro hnone
    have hnone₁ : log₁.uploaded = [] := List.map_eq_nil_iff.mp (h₁.uploaded.trans hnone)
    rw [h₂.posts, huploaded.mpr hnone, h₁.posts, hnone₁]
    exact vm.savedPosts_again_iff s.posts
  constructor
  · rintro ⟨hsame, hup, hdel⟩
    have hnone := huploaded.mp hup
    exact ⟨hnone, (hdeleted hnone).mp hdel, (hposts hnone).mp hsame⟩
  · rintro ⟨hnone, hdel, hdate⟩
    exact ⟨(hposts hnone).mpr hdate, huploaded.mpr hnone, (hdeleted hnone).mpr hdel⟩

theorem saved_twice_iff_example : ∃ s₁ log₁ s₂ log₂,
    Saves 0 (annsDevice withName) [(0, .ok), (0, .ok), (0, .ok)] s₁ log₁ ∧
      Saves 0 s₁ [(0, .ok), (0, .ok), (0, .ok)] s₂ log₂ ∧
        s₂.posts = s₁.posts ∧ log₂.uploaded = [] ∧ log₂.deleted = [] := by
  have hsaves : ∃ s₁ log₁ s₂ log₂,
      Saves 0 (annsDevice withName) [(0, .ok), (0, .ok), (0, .ok)] s₁ log₁ ∧
        Saves 0 s₁ [(0, .ok), (0, .ok), (0, .ok)] s₂ log₂ := ⟨_, _, _, _, rfl, rfl⟩
  obtain ⟨s₁, log₁, s₂, log₂, hfirst, hsecond⟩ := hsaves
  refine ⟨s₁, log₁, s₂, log₂, hfirst, hsecond,
    (saved_twice_iff rfl hfirst hsecond).mpr ⟨rfl, rfl, ?_⟩⟩
  intro id document _ hdoc _ k _ hsame
  obtain ⟨-, rfl⟩ := id_of_annsStore hdoc
  exact (not_not.mp hsame).symm

/-- The picked image is uploaded by both saves. -/
theorem uploaded_twice : ¬ ∀ (i : Nat) (vm : PostVM) (s s₁ s₂ : App)
    (answers answers' : List (Nat × Reply)) (log₁ log₂ : SaveLog), s.vms[i]? = some vm →
      Saves i s answers s₁ log₁ → Saves i s₁ answers' s₂ log₂ →
        s₂.posts = s₁.posts ∧ log₂.uploaded = [] ∧ log₂.deleted = [] := by
  intro h
  have hsaves : ∃ s₁ log₁ s₂ log₂,
      Saves 0 (annsDevice { annsForm with additionalImages := ["x"] })
        [(0, .uploaded "u"), (0, .ok), (0, .ok), (0, .ok)] s₁ log₁ ∧
      Saves 0 s₁ [(0, .uploaded "v"), (0, .ok), (0, .ok), (0, .ok)] s₂ log₂ ∧
        log₂.uploaded = [("x", "v")] := ⟨_, _, _, _, rfl, rfl, rfl⟩
  obtain ⟨s₁, log₁, s₂, log₂, hfirst, hsecond, huploaded⟩ := hsaves
  have hnone := (h 0 _ _ s₁ s₂ _ _ log₁ log₂ rfl hfirst hsecond).2.1
  rw [huploaded] at hnone
  exact absurd hnone (List.cons_ne_nil _ _)

end Subtle.Feed
