import Subtle.Feed.EditForm

/-!
# Two edit sessions of one post

The poster has a post open on two devices and edits it on both.  Each form is saved
once, and nothing fails.

* `sessions`: the app while only the two forms are used, with what each session saved
  and uploaded, and the updates in the order of their commits.
* `Phase`: a session is editing, saving or saved.
* `twoSessions_run`: **each session is in one of its phases, and the stored post is the
  one that both started from after the updates committed so far**.
-/

namespace Subtle.Feed

open Subtle.Firestore Subtle.Lib Subtle.Storage

/-- The data of the update, once the new images are uploaded. -/
def PostVM.updateData (vm : PostVM) (uploads : List (UIImage × URL)) : Document :=
  PostVM.withPictures vm.editParams (vm.editImages ++ uploads.map Prod.snd)

/-! ### The app while two sessions are edited -/

/-- What the sessions did: the forms as they were saved, the images uploaded for them,
and the updates in the order of their commits. -/
structure EditLog where
  saved : Nat → Option PostVM
  uploads : Nat → List (UIImage × URL)
  committed : List (Nat × Document)

namespace EditLog

/-- Only the forms of the two sessions are used, and each is saved once. -/
def noteCall (log : EditLog) (s : App) : Call → Option EditLog
  | .save i =>
      if i < 2 ∧ log.saved i = none then
        some { log with saved := Function.update log.saved i s.vms[i]? }
      else none
  | .fill i _ | .addImage i _ | .toggle i _ | .deleteImages i _ _ =>
      if i < 2 ∧ log.saved i = none then some log else none
  | _ => none

/-- An image was uploaded for a session. -/
def upload (log : EditLog) (i : Nat) (image : UIImage) (url : URL) : EditLog :=
  { log with uploads := Function.update log.uploads i (log.uploads i ++ [(image, url)]) }

/-- The update of a session was committed. -/
def commit (log : EditLog) (i : Nat) (data : Document) : EditLog :=
  { log with committed := log.committed ++ [(i, data)] }

/-- Nothing fails. -/
def noteAnswer (log : EditLog) (_ : App) : Op → Reply → Option EditLog
  | _, .error => none
  | .upload image _ _ (.modifyPost i _ _), .uploaded url => some (log.upload i image url)
  | .updateData i _ (.edit data), .ok => some (log.commit i data)
  | _, _ => some log

/-- The updates of one session. -/
def commitsOf (log : EditLog) (i : Nat) : List Document :=
  (log.committed.filter fun c => decide (c.1 = i)).map Prod.snd

/-- The session that committed last. -/
def last (log : EditLog) : Option Nat := log.committed.getLast?.map Prod.fst

variable (log : EditLog) {i j : Nat}

theorem noteAnswer_error (s : App) (op : Op) : log.noteAnswer s op .error = none := by
  cases op <;> rfl

theorem uploads_upload_self (image : UIImage) (url : URL) :
    (log.upload i image url).uploads i = log.uploads i ++ [(image, url)] :=
  Function.update_self i _ _

theorem uploads_upload_of_ne (h : j ≠ i) (image : UIImage) (url : URL) :
    (log.upload i image url).uploads j = log.uploads j := Function.update_of_ne h _ _

theorem commitsOf_commit_self (data : Document) :
    (log.commit i data).commitsOf i = log.commitsOf i ++ [data] := by
  simp [commitsOf, commit, List.filter_append]

theorem commitsOf_commit_of_ne (h : j ≠ i) (data : Document) :
    (log.commit i data).commitsOf j = log.commitsOf j := by
  simp [commitsOf, commit, List.filter_append, h.symm]

end EditLog

/-- The app while two forms are edited and saved. -/
def sessions : Service (App × EditLog) Call Op Reply :=
  app.watched id id EditLog.noteCall EditLog.noteAnswer

/-- The poster has the post open twice. -/
def App.openedTwice (posts : String → Option Document) (objects : Finset URL) (post : Post) :
    App :=
  { App.start posts objects with
    vms := [PostVM.init (some post.posterId) post, PostVM.init (some post.posterId) post]
    issued := objects ∪ post.pictures.toFinset }

def sessions.start (posts : String → Option Document) (objects : Finset URL) (post : Post) :
    Config (App × EditLog) Op :=
  ⟨(App.openedTwice posts objects post, ⟨fun _ => none, fun _ => [], []⟩), []⟩

/-- Both sessions start from the stored version. -/
theorem run_openPost {posts : String → Option Document} {id : String} {document : Document}
    {post : Post} (objects : Finset URL) (hdoc : posts id = some document)
    (hdecode : Post.decode id document = some post) :
    app.machine.run
        ⟨{ App.start posts objects with issued := objects ∪ post.pictures.toFinset }, []⟩
        [.call (.openPost (some post.posterId) id), .call (.openPost (some post.posterId) id)] =
      some ⟨App.openedTwice posts objects post, []⟩ := by
  have hopen : ∀ s : App, s.posts = posts →
      s.call (.openPost (some post.posterId) id) =
        some ({ s with vms := s.vms ++ [PostVM.init (some post.posterId) post] }, []) := by
    intro s hs
    rw [App.call, hs, hdoc, Option.bind_some, hdecode, Option.map_some]
  refine Machine.run_cons.mpr ⟨_, congrArg (Option.map _) (hopen _ rfl), ?_⟩
  exact Machine.run_cons.mpr ⟨_, congrArg (Option.map _) (hopen _ rfl), rfl⟩

/-! ### What a session keeps -/

/-- The form shows the post, and its images with the removed ones are those of the post. -/
structure Edits (post : Post) (vm : PostVM) : Prop where
  currentUser : vm.currentUser = some post.posterId
  shown : vm.post = post
  selected : ∀ url ∈ vm.selected, url ∈ vm.editImages
  cover : ∀ url, url ∈ post.pictures ↔ url ∈ vm.editImages ∨ url ∈ vm.imagesToDelete
  apart : ∀ url ∈ vm.imagesToDelete, url ∉ vm.editImages

namespace Edits

variable {post : Post} {vm : PostVM}

theorem init (post : Post) : Edits post (PostVM.init (some post.posterId) post) :=
  ⟨rfl, rfl, fun _ h => absurd h (Finset.notMem_empty _),
    fun _ => (or_iff_left List.not_mem_nil).symm, List.forall_mem_nil _⟩

theorem covers (h : Edits post vm) : Covers post.pictures vm := ⟨h.selected, h.cover, h.apart⟩

theorem toggle (h : Edits post vm) {url : URL} (hurl : url ∈ vm.editImages) :
    Edits post (vm.toggle url) := by
  have hcovers := h.covers.toggle hurl
  exact ⟨h.currentUser, h.shown, hcovers.selected, hcovers.cover, hcovers.apart⟩

theorem deleteImages (h : Edits post vm) {imagesToRetain deleted : List URL}
    (hretain : PostVM.Enumerates imagesToRetain (vm.editImages.toFinset \ vm.selected))
    (hdeleted : PostVM.Enumerates deleted vm.selected) :
    Edits post (vm.deleteImages imagesToRetain deleted) := by
  have hcovers := h.covers.deleteImages hretain hdeleted
  exact ⟨h.currentUser, h.shown, hcovers.selected, hcovers.cover, hcovers.apart⟩

end Edits

/-- The session whose update the operation leads to. -/
def Op.writer : Op → Option Nat
  | .upload _ _ _ (.modifyPost i _ _) | .updateData i _ (.edit _) => some i
  | _ => none

/-- The outstanding operations that lead to an update of the session. -/
def writesOf (i : Nat) (ops : List Op) : List Op := ops.filter fun op => decide (op.writer = some i)

/-- The operation leads to the update of the saved form. -/
inductive Carries (id : String) (i : Nat) (vm : PostVM) (uploads : List (UIImage × URL)) :
    Op → Prop
  | upload (image : UIImage) (rest : List UIImage)
      (himages : uploads.map Prod.fst ++ image :: rest = vm.additionalImages) :
      Carries id i vm uploads
        (.upload image rest (uploads.map Prod.snd) (.modifyPost i vm.editParams vm.editImages))
  | update (himages : uploads.map Prod.fst = vm.additionalImages) :
      Carries id i vm uploads (.updateData i id (.edit (vm.updateData uploads)))

/-- A session is editing, saving or saved. -/
inductive Phase (post : Post) (id : String) (s : App) (log : EditLog) (ops : List Op) (i : Nat) :
    Prop
  | editing (vm : PostVM) (hsaved : log.saved i = none) (huploads : log.uploads i = [])
      (hcommits : log.commitsOf i = []) (hvm : s.vms[i]? = some vm) (hedits : Edits post vm)
      (hops : writesOf i ops = [])
  | saving (vm : PostVM) (op : Op) (hsaved : log.saved i = some vm)
      (hcommits : log.commitsOf i = []) (hvm : s.vms[i]? = some vm) (hedits : Edits post vm)
      (hops : writesOf i ops = [op]) (hop : Carries id i vm (log.uploads i) op)
  | saved (vm : PostVM) (hsaved : log.saved i = some vm)
      (hcommits : log.commitsOf i = [vm.updateData (log.uploads i)]) (hedits : Edits post vm)
      (hops : writesOf i ops = [])
      (hadded : (log.uploads i).map Prod.fst = vm.additionalImages)

/-- The operations that two sessions can lead to; the post is read back after a commit. -/
def Op.Expected (log : EditLog) : Op → Prop
  | .upload _ _ _ (.modifyPost i _ _) | .updateData i _ (.edit _) => i < 2
  | .getDocument i _ | .response i _ => log.commitsOf i ≠ []
  | .deleteImage _ _ => True
  | _ => False

/-- The stored post is the one that both started from after the updates committed so far,
and each of the two sessions is in one of its phases. -/
structure TwoSessions (post : Post) (id : String) (document : Document) (p : App × EditLog)
    (ops : List Op) : Prop where
  stored : p.1.posts id = some (document.overwriteAll (p.2.committed.map Prod.snd))
  issued : ∀ url ∈ post.pictures, url ∈ p.1.issued
  fresh : ∀ i, ∀ upload ∈ p.2.uploads i, upload.2 ∉ post.pictures
  writers : ∀ c ∈ p.2.committed, c.1 < 2
  expected : ∀ op ∈ ops, op.Expected p.2
  phases : ∀ i < 2, Phase post id p.1 p.2 ops i

variable {post : Post} {id : String} {document : Document} {s s' : App} {log log' : EditLog}
  {ops ops' new pre tail : List Op} {op op' : Op} {i j : Nat}

theorem writesOf_append (i : Nat) (ops ops' : List Op) :
    writesOf i (ops ++ ops') = writesOf i ops ++ writesOf i ops' := List.filter_append ops ops'

theorem writesOf_cons_of_ne (h : op.writer ≠ some i) (ops : List Op) :
    writesOf i (op :: ops) = writesOf i ops := List.filter_cons_of_neg (by simpa using h)

theorem writesOf_cons_self (h : op.writer = some i) (ops : List Op) :
    writesOf i (op :: ops) = op :: writesOf i ops := List.filter_cons_of_pos (by simpa using h)

theorem writesOf_eq_nil (h : ∀ op ∈ ops, op.writer ≠ some i) : writesOf i ops = [] := by
  rw [writesOf, List.filter_eq_nil_iff]
  intro op hop
  simpa using h op hop

/-- An operation of another session is answered. -/
theorem writesOf_answered_of_ne (hop : op.writer ≠ some i)
    (hnew : ∀ op' ∈ new, op'.writer ≠ some i) :
    writesOf i (pre ++ tail ++ new) = writesOf i (pre ++ op :: tail) := by
  rw [writesOf_append, writesOf_eq_nil hnew, List.append_nil, writesOf_append, writesOf_append,
    writesOf_cons_of_ne hop]

/-- The only write of a session is answered. -/
theorem writesOf_answered (hwriter : op.writer = some i)
    (h : writesOf i (pre ++ op :: tail) = [op']) :
    op' = op ∧ writesOf i (pre ++ tail ++ new) = writesOf i new := by
  rw [writesOf_append, writesOf_cons_self hwriter] at h
  have hlength := congrArg List.length h
  rw [List.length_append, List.length_cons, List.length_singleton] at hlength
  have hpre : writesOf i pre = [] := List.eq_nil_of_length_eq_zero (by omega)
  have htail : writesOf i tail = [] := List.eq_nil_of_length_eq_zero (by omega)
  rw [hpre, htail] at h
  refine ⟨(List.singleton_inj.mp h).symm, ?_⟩
  rw [writesOf_append, writesOf_append, hpre, htail]
  rfl

/-- A step of something else. -/
theorem Phase.frame (h : Phase post id s log ops i)
    (hvm : log.commitsOf i = [] → s'.vms[i]? = s.vms[i]?) (hsaved : log'.saved i = log.saved i)
    (huploads : log'.uploads i = log.uploads i) (hcommits : log'.commitsOf i = log.commitsOf i)
    (hops : writesOf i ops' = writesOf i ops) : Phase post id s' log' ops' i := by
  cases h with
  | editing vm hs hu hc hv hedits ho =>
    exact .editing vm (hsaved.trans hs) (huploads.trans hu) (hcommits.trans hc)
      ((hvm hc).trans hv) hedits (hops.trans ho)
  | saving vm op hs hc hv hedits ho hop =>
    refine .saving vm op (hsaved.trans hs) (hcommits.trans hc) ((hvm hc).trans hv) hedits
      (hops.trans ho) ?_
    rwa [huploads]
  | saved vm hs hc hedits ho hadded =>
    refine .saved vm (hsaved.trans hs) ?_ hedits (hops.trans ho) ?_
    · rw [hcommits, huploads, hc]
    · rw [huploads, hadded]

theorem Op.Expected.mono (h : op.Expected log)
    (hcommits : ∀ i, log.commitsOf i ≠ [] → log'.commitsOf i ≠ []) : op.Expected log' := by
  unfold Op.Expected at h ⊢
  split at h
  · exact h
  · exact h
  · exact hcommits _ h
  · exact hcommits _ h
  · trivial
  · exact h.elim

/-- The operations outstanding after an answer are expected. -/
theorem expected_answered (h : ∀ op' ∈ pre ++ op :: tail, op'.Expected log)
    (hcommits : ∀ i, log.commitsOf i ≠ [] → log'.commitsOf i ≠ [])
    (hnew : ∀ op' ∈ new, op'.Expected log') : ∀ op' ∈ pre ++ tail ++ new, op'.Expected log' := by
  intro op' hmem
  rcases List.mem_append.mp hmem with hold | hmem
  · exact (h op' (Service.mem_pending_iff.mpr (Or.inr hold))).mono hcommits
  · exact hnew op' hmem

namespace Carries

variable {vm : PostVM} {uploads : List (UIImage × URL)}

theorem writer (h : Carries id i vm uploads op) : op.writer = some i := by
  cases h <;> rfl

theorem expected (h : Carries id i vm uploads op) (hi : i < 2) : op.Expected log := by
  cases h <;> exact hi

end Carries

theorem writer_ne (hij : j ≠ i) (h : op.writer = some i) : op.writer ≠ some j := by
  rw [h]
  exact fun heq => hij (Option.some.inj heq).symm

theorem writesOf_singleton (h : op.writer = some i) : writesOf i [op] = [op] :=
  writesOf_cons_self h []

/-! ### The calls -/

theorem modifyPost_eq {vm : PostVM} (hedits : Edits post vm) (hid : post.id = some id)
    (data : Document) : modifyPost i vm data = [.updateData i id (.edit data)] := by
  rw [modifyPost, hedits.currentUser, hedits.shown, hid]
  exact if_pos rfl

/-- **A save issues one operation that leads to the update**, and deletions. -/
theorem editPostAndImages_eq {vm : PostVM} (hedits : Edits post vm) (hid : post.id = some id)
    (s : App) (i : Nat) : ∃ op rest, editPostAndImages s i vm = op :: rest ∧
      Carries id i vm [] op ∧ ∀ op' ∈ rest, ∃ urls index, op' = .deleteImage urls index := by
  unfold editPostAndImages
  cases himages : vm.additionalImages with
  | nil =>
    rw [if_neg (not_not.mpr rfl), modifyPost_eq hedits hid]
    refine ⟨_, _, rfl, ?_, ?_⟩
    · have hdata : PostVM.withPictures vm.editParams vm.editImages = vm.updateData [] := by
        rw [PostVM.updateData, List.map_nil, List.append_nil]
      rw [hdata]
      exact .update himages.symm
    · intro op' hop'
      obtain ⟨index, rfl⟩ := mem_startDeletion hop'
      exact ⟨_, _, rfl⟩
  | cons image rest =>
    rw [if_pos (List.cons_ne_nil _ _)]
    simp only [App.addImages, hedits.currentUser]
    exact ⟨_, [], rfl, .upload image rest himages.symm, List.forall_mem_nil _⟩

namespace TwoSessions

/-- A session that has not saved is editing. -/
theorem editing (h : TwoSessions post id document (s, log) ops) (hi : i < 2)
    (hsaved : log.saved i = none) {vm : PostVM} (hvm : s.vms[i]? = some vm) :
    log.uploads i = [] ∧ log.commitsOf i = [] ∧ Edits post vm ∧ writesOf i ops = [] := by
  cases h.phases i hi with
  | editing vm' hs huploads hcommits hvm' hedits hops =>
    obtain rfl := Option.some.inj (hvm'.symm.trans hvm)
    exact ⟨huploads, hcommits, hedits, hops⟩
  | saving vm' op hs hcommits hvm' hedits hops hop =>
    exact absurd (hs.symm.trans hsaved) (Option.some_ne_none _)
  | saved vm' hs hcommits hedits hops hadded =>
    exact absurd (hs.symm.trans hsaved) (Option.some_ne_none _)

/-- The form of a session changes. -/
theorem set_form (h : TwoSessions post id document (s, log) ops) (hi : i < 2)
    (hsaved : log.saved i = none) {vm vm' : PostVM} (hvm : s.vms[i]? = some vm)
    (hedits : Edits post vm → Edits post vm') :
    TwoSessions post id document ({ s with vms := s.vms.set i vm' }, log) (ops ++ []) := by
  rw [List.append_nil]
  obtain ⟨huploads, hcommits, hedit, hops⟩ := h.editing hi hsaved hvm
  refine ⟨h.stored, h.issued, h.fresh, h.writers, h.expected, ?_⟩
  intro j hj
  by_cases hij : i = j
  · subst hij
    refine .editing vm' hsaved huploads hcommits ?_ (hedits hedit) hops
    exact List.getElem?_set_self (List.getElem?_eq_some_iff.mp hvm).1
  · exact (h.phases j hj).frame (fun _ => List.getElem?_set_ne hij) rfl rfl rfl rfl

/-- The form of a session is saved. -/
theorem save (h : TwoSessions post id document (s, log) ops) (hid : post.id = some id)
    (hi : i < 2) (hsaved : log.saved i = none) {vm : PostVM} (hvm : s.vms[i]? = some vm) :
    TwoSessions post id document
      (s, { log with saved := Function.update log.saved i s.vms[i]? })
      (ops ++ editPostAndImages s i vm) := by
  obtain ⟨huploads, hcommits, hedits, hops⟩ := h.editing hi hsaved hvm
  obtain ⟨op, rest, hnew, hop, hrest⟩ := editPostAndImages_eq hedits hid s i
  rw [hnew]
  refine ⟨h.stored, h.issued, h.fresh, h.writers, ?_, ?_⟩
  · intro op' hop'
    rcases List.mem_append.mp hop' with hold | hmem
    · exact (h.expected op' hold).mono fun _ hc => hc
    · rcases List.mem_cons.mp hmem with rfl | hmem
      · exact hop.expected hi
      · obtain ⟨urls, index, rfl⟩ := hrest op' hmem
        trivial
  · intro j hj
    have hdeletions : writesOf j rest = [] := by
      apply writesOf_eq_nil
      intro op' hop'
      obtain ⟨urls, index, rfl⟩ := hrest op' hop'
      exact (Option.some_ne_none _).symm
    by_cases hij : j = i
    · subst hij
      refine .saving vm op ?_ hcommits hvm hedits ?_ ?_
      · exact (Function.update_self _ _ _).trans hvm
      · rw [writesOf_append, hops, writesOf_cons_self hop.writer, hdeletions]
        rfl
      · rw [huploads]
        exact hop
    · refine (h.phases j hj).frame (fun _ => rfl) (Function.update_of_ne hij _ _) rfl rfl ?_
      rw [writesOf_append, writesOf_cons_of_ne (writer_ne hij hop.writer), hdeletions,
        List.append_nil]

/-- **A call keeps the sessions in their phases.** -/
theorem call (h : TwoSessions post id document (s, log) ops) (hid : post.id = some id) {x : Call}
    (hnote : log.noteCall s x = some log') (hcalled : Called s x s' new) :
    TwoSessions post id document (s', log') (ops ++ new) := by
  cases hcalled with
  | filled i form vm hvm =>
    obtain ⟨⟨hi, hsaved⟩, rfl⟩ := Option.ite_some_none_eq_some.mp hnote
    exact h.set_form hi hsaved hvm fun he => ⟨he.1, he.2, he.3, he.4, he.5⟩
  | imageAdded i image vm hvm =>
    obtain ⟨⟨hi, hsaved⟩, rfl⟩ := Option.ite_some_none_eq_some.mp hnote
    exact h.set_form hi hsaved hvm fun he => ⟨he.1, he.2, he.3, he.4, he.5⟩
  | toggled i url vm hvm hurl =>
    obtain ⟨⟨hi, hsaved⟩, rfl⟩ := Option.ite_some_none_eq_some.mp hnote
    exact h.set_form hi hsaved hvm fun he => he.toggle hurl
  | imagesDeleted i imagesToRetain deleted vm hvm hretain hdeleted =>
    obtain ⟨⟨hi, hsaved⟩, rfl⟩ := Option.ite_some_none_eq_some.mp hnote
    exact h.set_form hi hsaved hvm fun he => he.deleteImages hretain hdeleted
  | saved i vm hvm hshows =>
    obtain ⟨⟨hi, hsaved⟩, rfl⟩ := Option.ite_some_none_eq_some.mp hnote
    exact h.save hid hi hsaved hvm
  | submitted currentUser form images id' creationDate p hp =>
    exact absurd hnote (Option.some_ne_none _).symm
  | opened currentUser id' document' p hdoc hdecode =>
    exact absurd hnote (Option.some_ne_none _).symm
  | liked i vm => exact absurd hnote (Option.some_ne_none _).symm
  | unliked i vm => exact absurd hnote (Option.some_ne_none _).symm
  | postDeleted i vm => exact absurd hnote (Option.some_ne_none _).symm

/-! ### The answers -/

/-- A session with an outstanding write is saving. -/
theorem saving (h : TwoSessions post id document (s, log) (pre ++ op :: tail))
    (hwriter : op.writer = some i) (hi : i < 2) : ∃ vm, log.saved i = some vm ∧
      log.commitsOf i = [] ∧ s.vms[i]? = some vm ∧ Edits post vm ∧
        Carries id i vm (log.uploads i) op ∧
          ∀ new, writesOf i (pre ++ tail ++ new) = writesOf i new := by
  have hmem : op ∈ writesOf i (pre ++ op :: tail) := by
    rw [writesOf_append, writesOf_cons_self hwriter]
    exact List.mem_append_right _ List.mem_cons_self
  cases h.phases i hi with
  | editing vm hsaved huploads hcommits hvm hedits hops =>
    rw [hops] at hmem
    exact absurd hmem List.not_mem_nil
  | saving vm op' hsaved hcommits hvm hedits hops hop =>
    have honly := fun new => @writesOf_answered new pre tail op op' i hwriter hops
    obtain ⟨rfl, -⟩ := honly []
    exact ⟨vm, hsaved, hcommits, hvm, hedits, hop, fun new => (honly new).2⟩
  | saved vm hsaved hcommits hedits hops hadded =>
    rw [hops] at hmem
    exact absurd hmem List.not_mem_nil

/-- An operation that leads to no update is answered. -/
theorem idle (h : TwoSessions post id document (s, log) (pre ++ op :: tail))
    (hop : op.writer = none) (hposts : s'.posts = s.posts) (hissued : s.issued ⊆ s'.issued)
    (hvms : ∀ i, log.commitsOf i = [] → s'.vms[i]? = s.vms[i]?)
    (hnew : ∀ op' ∈ new, op'.writer = none ∧ op'.Expected log) :
    TwoSessions post id document (s', log) (pre ++ tail ++ new) := by
  have hne : ∀ {op' : Op} {i : Nat}, op'.writer = none → op'.writer ≠ some i := by
    intro op' i hnone
    rw [hnone]
    exact (Option.some_ne_none i).symm
  refine ⟨?_, fun url hurl => hissued (h.issued url hurl), h.fresh, h.writers,
    expected_answered h.expected (fun _ hc => hc) fun op' hmem => (hnew op' hmem).2, ?_⟩
  · rw [hposts]
    exact h.stored
  · intro i hi
    exact (h.phases i hi).frame (hvms i) rfl rfl rfl
      (writesOf_answered_of_ne (hne hop) fun op' hmem => hne (hnew op' hmem).1)

/-- The next operation of a batch of uploads. -/
theorem carries_next {vm : PostVM} {uploads : List (UIImage × URL)} {image : UIImage}
    {rest : List UIImage} (url : URL) (hedits : Edits post vm) (hid : post.id = some id)
    (hvm : s.vms[i]? = some vm)
    (himages : uploads.map Prod.fst ++ image :: rest = vm.additionalImages) :
    ∃ op, s.addImageHelper (uploads.map Prod.snd ++ [url])
        (.modifyPost i vm.editParams vm.editImages) rest = [op] ∧
      Carries id i vm (uploads ++ [(image, url)]) op := by
  have hurls : uploads.map Prod.snd ++ [url] = (uploads ++ [(image, url)]).map Prod.snd := by
    rw [List.map_append]
    rfl
  have himages' : (uploads ++ [(image, url)]).map Prod.fst ++ rest = vm.additionalImages := by
    rw [List.map_append, List.append_assoc]
    exact himages
  rw [hurls]
  cases rest with
  | cons image' rest => exact ⟨_, rfl, .upload image' rest himages'⟩
  | nil =>
    rw [List.append_nil] at himages'
    simp only [App.addImageHelper, App.uploaded, hvm]
    rw [modifyPost_eq hedits hid]
    exact ⟨_, rfl, .update himages'⟩

/-- An image of a session is uploaded. -/
theorem upload {image : UIImage} {rest : List UIImage} {urls : List URL} {params : Document}
    {newImages : List URL} {url : URL}
    (h : TwoSessions post id document (s, log)
      (pre ++ .upload image rest urls (.modifyPost i params newImages) :: tail))
    (hid : post.id = some id) (hfresh : url ∉ s.issued) (hposts : s'.posts = s.posts)
    (hissued : s.issued ⊆ s'.issued) (hvms : s'.vms = s.vms) :
    TwoSessions post id document
      (s', log.upload i image url)
      (pre ++ tail ++ s'.addImageHelper (urls ++ [url]) (.modifyPost i params newImages) rest) := by
  have hi : i < 2 := h.expected _ (Service.mem_pending_iff.mpr (Or.inl rfl))
  obtain ⟨vm, hsaved, hcommits, hvm, hedits, hop, honly⟩ := h.saving rfl hi
  cases hop with
  | upload _ _ himages =>
    obtain ⟨op, hnew, hop⟩ := carries_next url hedits hid (hvms ▸ hvm) himages
    rw [hnew]
    refine ⟨?_, fun u hu => hissued (h.issued u hu), ?_, h.writers, ?_, ?_⟩
    · rw [hposts]
      exact h.stored
    · intro j
      by_cases hij : j = i
      · subst hij
        intro upload hmem
        rw [EditLog.uploads_upload_self] at hmem
        rcases List.mem_append.mp hmem with hold | hmem
        · exact h.fresh j upload hold
        · obtain rfl := List.mem_singleton.mp hmem
          exact fun hin => hfresh (h.issued url hin)
      · rw [EditLog.uploads_upload_of_ne log hij]
        exact h.fresh j
    · refine expected_answered h.expected (fun _ hc => hc) ?_
      intro op' hmem
      obtain rfl := List.mem_singleton.mp hmem
      exact hop.expected hi
    · intro j hj
      by_cases hij : j = i
      · subst hij
        refine .saving vm op hsaved hcommits (hvms ▸ hvm) hedits ?_ ?_
        · rw [honly, writesOf_singleton hop.writer]
        · rw [EditLog.uploads_upload_self]
          exact hop
      · refine (h.phases j hj).frame (fun _ => congrArg (fun vms => vms[j]?) hvms) rfl
          (log.uploads_upload_of_ne hij image url) rfl ?_
        refine writesOf_answered_of_ne (writer_ne hij rfl) ?_
        intro op' hmem
        obtain rfl := List.mem_singleton.mp hmem
        exact writer_ne hij hop.writer

/-- The update of a session is committed. -/
theorem commit {id' : String} {data stored : Document}
    (h : TwoSessions post id document (s, log) (pre ++ .updateData i id' (.edit data) :: tail))
    (hdoc : s.posts id' = some stored)
    (history : String → Option (Document × List Change)) :
    TwoSessions post id document
      ({ s with
          posts := Function.update s.posts id' (some ((Change.edit data).commit stored))
          history := history }, log.commit i data)
      (pre ++ tail ++ [.getDocument i id']) := by
  have hi : i < 2 := h.expected _ (Service.mem_pending_iff.mpr (Or.inl rfl))
  obtain ⟨vm, hsaved, hcommits, hvm, hedits, hop, honly⟩ := h.saving rfl hi
  cases hop with
  | update himages =>
    have hmore : ∀ j, log.commitsOf j ≠ [] →
        (log.commit i (vm.updateData (log.uploads i))).commitsOf j ≠ [] := by
      intro j hj
      by_cases hij : j = i
      · subst hij
        exact absurd hcommits hj
      · rwa [log.commitsOf_commit_of_ne hij]
    have hself : (log.commit i (vm.updateData (log.uploads i))).commitsOf i =
        [vm.updateData (log.uploads i)] := by
      rw [log.commitsOf_commit_self, hcommits]
      rfl
    refine ⟨?_, h.issued, h.fresh, ?_, ?_, ?_⟩
    · have hstored : stored = document.overwriteAll (log.committed.map Prod.snd) :=
        Option.some.inj (hdoc.symm.trans h.stored)
      show Function.update s.posts id _ id = _
      rw [Function.update_self, EditLog.commit, List.map_append, hstored]
      exact congrArg some (Record.overwriteAll_concat _ _ _).symm
    · intro c hc
      rcases List.mem_append.mp hc with hold | hc
      · exact h.writers c hold
      · obtain rfl := List.mem_singleton.mp hc
        exact hi
    · refine expected_answered h.expected hmore ?_
      intro op' hmem
      obtain rfl := List.mem_singleton.mp hmem
      show (log.commit i _).commitsOf i ≠ []
      rw [hself]
      exact List.cons_ne_nil _ _
    · intro j hj
      by_cases hij : j = i
      · subst hij
        exact .saved vm hsaved hself hedits (honly _) himages
      · refine (h.phases j hj).frame (fun _ => rfl) rfl rfl (log.commitsOf_commit_of_ne hij _) ?_
        refine writesOf_answered_of_ne (writer_ne hij rfl) ?_
        intro op' hmem
        obtain rfl := List.mem_singleton.mp hmem
        exact (Option.some_ne_none _).symm

/-- **An answer keeps the sessions in their phases.** -/
theorem answer (h : TwoSessions post id document (s, log) (pre ++ op :: tail))
    (hid : post.id = some id) {r : Reply} (hnote : log.noteAnswer s op r = some log')
    (hanswered : Answered s op r s' new) :
    TwoSessions post id document (s', log') (pre ++ tail ++ new) := by
  have hexpected : op.Expected log := h.expected op (Service.mem_pending_iff.mpr (Or.inl rfl))
  cases hanswered with
  | failed op hop =>
    rw [EditLog.noteAnswer_error] at hnote
    exact absurd hnote (Option.some_ne_none _).symm
  | uploaded image rest urls after url hfresh =>
    cases after with
    | addPost currentUser p => exact hexpected.elim
    | modifyPost i params newImages =>
      obtain rfl := Option.some.inj hnote
      exact h.upload hid hfresh rfl (Finset.subset_insert _ _) rfl
  | created id' p => exact hexpected.elim
  | updated i id' change stored hdoc =>
    cases change with
    | edit data =>
      obtain rfl := Option.some.inj hnote
      exact h.commit hdoc _
    | like likerId => exact hexpected.elim
    | unlike unlikerId => exact hexpected.elim
  | missing i id' =>
    obtain rfl := Option.some.inj hnote
    exact h.idle rfl rfl (Finset.Subset.refl _) (fun _ _ => rfl)
      (List.forall_mem_nil _)
  | read i id' p =>
    obtain rfl := Option.some.inj hnote
    refine h.idle rfl rfl (Finset.Subset.refl _) (fun _ _ => rfl) ?_
    intro op' hmem
    obtain rfl := List.mem_singleton.mp hmem
    exact ⟨rfl, hexpected⟩
  | delivered i p =>
    obtain rfl := Option.some.inj hnote
    refine h.idle rfl rfl (Finset.Subset.refl _) ?_ (List.forall_mem_nil _)
    -- the post is delivered to a session that has committed
    intro j hj
    have hij : i ≠ j := by
      rintro rfl
      exact hexpected hj
    exact List.getElem?_modify_ne _ _ hij
  | removed urls index =>
    obtain rfl := Option.some.inj hnote
    refine h.idle rfl rfl (Finset.Subset.refl _) (fun _ _ => rfl) ?_
    intro op' hmem
    obtain rfl := mem_nextDeletion hmem
    exact ⟨rfl, trivial⟩
  | kept urls index =>
    rw [EditLog.noteAnswer_error] at hnote
    exact absurd hnote (Option.some_ne_none _).symm
  | deleted id' => exact hexpected.elim

end TwoSessions

theorem twoSessions_start {posts : String → Option Document} (hdoc : posts id = some document)
    (objects : Finset URL) : TwoSessions post id document
      (sessions.start posts objects post).core (sessions.start posts objects post).pending := by
  refine ⟨hdoc, ?_, fun i upload hmem => absurd hmem List.not_mem_nil,
    List.forall_mem_nil _, List.forall_mem_nil _, ?_⟩
  · intro url hurl
    exact Finset.mem_union_right _ (List.mem_toFinset.mpr hurl)
  · intro i hi
    have hvm : (App.openedTwice posts objects post).vms[i]? =
        some (PostVM.init (some post.posterId) post) := by
      obtain rfl | rfl : i = 0 ∨ i = 1 := by omega
      · rfl
      · rfl
    exact .editing _ rfl rfl rfl hvm (Edits.init post) rfl

/-- Every run of two sessions keeps them in their phases. -/
theorem twoSessions_run {posts : String → Option Document} {objects : Finset URL}
    {es : List (Event Call Reply)} {c : Config (App × EditLog) Op} (hdoc : posts id = some document)
    (hid : post.id = some id)
    (hrun : sessions.machine.run (sessions.start posts objects post) es = some c) :
    TwoSessions post id document c.core c.pending := by
  refine Service.run_inv_of_step (I := TwoSessions post id document) ?_ ?_
    (twoSessions_start hdoc objects) hrun
  · rintro ⟨s, log⟩ ops x ⟨s', log'⟩ new h hcall
    obtain ⟨hnote, hcall⟩ := Service.watched_call hcall
    exact h.call hid hnote (called_of_call hcall)
  · rintro ⟨s, log⟩ pre op tail r ⟨s', log'⟩ new h hanswer
    obtain ⟨hnote, hanswer⟩ := Service.watched_answer hanswer
    exact h.answer hid hnote (answered_of_answer hanswer)

/-! ### When both are saved -/

theorem TwoSessions.saved_of_rest (h : TwoSessions post id document (s, log) []) (hi : i < 2)
    {vm : PostVM} (hsaved : log.saved i = some vm) :
    Edits post vm ∧ log.commitsOf i = [vm.updateData (log.uploads i)] ∧
      (log.uploads i).map Prod.fst = vm.additionalImages := by
  cases h.phases i hi with
  | editing vm' hs huploads hcommits hvm hedits hops =>
    exact absurd (hsaved.symm.trans hs) (Option.some_ne_none _)
  | saving vm' op hs hcommits hvm hedits hops hop =>
    exact absurd hops.symm (List.cons_ne_nil _ _)
  | saved vm' hs hcommits hedits hops hadded =>
    obtain rfl := Option.some.inj (hs.symm.trans hsaved)
    exact ⟨hedits, hcommits, hadded⟩

theorem eq_singleton_of_filter {cs : List (Nat × Document)} {d : Document}
    (hall : ∀ c ∈ cs, c.1 = i ∨ c.1 = j) (hi : cs.filter (fun c => decide (c.1 = i)) = [])
    (hj : (cs.filter fun c => decide (c.1 = j)).map Prod.snd = [d]) : cs = [(j, d)] := by
  have hlabel : ∀ c ∈ cs, c.1 = j := by
    intro c hc
    have hne := List.filter_eq_nil_iff.mp hi c hc
    exact (hall c hc).resolve_left (by simpa using hne)
  rw [List.filter_eq_self.mpr fun c hc => decide_eq_true (hlabel c hc)] at hj
  obtain ⟨c, rfl, rfl⟩ := List.map_eq_singleton_iff.mp hj
  rw [← hlabel c List.mem_cons_self]

/-- Two commits of two sessions come in one of two orders. -/
theorem EditLog.committed_cases {d e : Document} (hwriters : ∀ c ∈ log.committed, c.1 < 2)
    (hd : log.commitsOf 0 = [d]) (he : log.commitsOf 1 = [e]) :
    log.committed = [(0, d), (1, e)] ∨ log.committed = [(1, e), (0, d)] := by
  unfold EditLog.commitsOf at hd he
  cases hcs : log.committed with
  | nil =>
    rw [hcs] at hd
    exact absurd hd.symm (List.cons_ne_nil _ _)
  | cons c rest =>
    obtain ⟨k, data⟩ := c
    rw [hcs] at hd he hwriters
    have hrest : ∀ c ∈ rest, c.1 = 0 ∨ c.1 = 1 := by
      intro c hc
      have hlt := hwriters c (List.mem_cons_of_mem _ hc)
      omega
    obtain rfl | rfl : k = 0 ∨ k = 1 := by
      have hlt : k < 2 := hwriters (k, data) List.mem_cons_self
      omega
    · left
      rw [List.filter_cons_of_pos (by simp), List.map_cons, List.cons.injEq, List.map_eq_nil_iff]
        at hd
      rw [List.filter_cons_of_neg (by simp)] at he
      obtain ⟨rfl, hnone⟩ := hd
      rw [eq_singleton_of_filter hrest hnone he]
    · right
      rw [List.filter_cons_of_pos (by simp), List.map_cons, List.cons.injEq, List.map_eq_nil_iff]
        at he
      rw [List.filter_cons_of_neg (by simp)] at hd
      obtain ⟨rfl, hnone⟩ := he
      rw [eq_singleton_of_filter (fun c hc => (hrest c hc).symm) hnone hd]

end Subtle.Feed
