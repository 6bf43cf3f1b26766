import Subtle.Feed.AgeFilter
import Subtle.Feed.System

/-!
# The rules for posts

The form of a new post is checked when it is submitted.  The edit form of a stored
post is saved as it is.

* `PostFormVM.postFormIsValid`: the checks of the first form.
* `posting`: the app with a clock, in which forms that are not valid are not
  submitted, and the versions of posts that the two paths write.
* `versions_meet_rules`: **every version meets the rules if every edit form saved would
  pass the checks and nobody turns 30 before a write commits**.
-/

namespace Subtle.Feed

open Subtle.Firestore Subtle.Lib Subtle.Lib.Gregorian Subtle.Storage

/-! ### The form of a new post -/

structure PostFormVM extends PostForm where
  images : List UIImage
  firstSubmitAttempted : Bool
  deriving DecidableEq

namespace PostFormVM

variable (calendar : Calendar) (now : Int) (vm : PostFormVM)

def nameError : Bool := vm.firstSubmitAttempted && vm.name == ""

def birthdateError : Bool :=
  vm.firstSubmitAttempted &&
    !(18 < calcAge calendar now vm.date && calcAge calendar now vm.date < 30)

def universityError : Bool := vm.firstSubmitAttempted && vm.university == ""

def locationError : Bool := vm.firstSubmitAttempted && vm.location == ""

def textError : Bool := vm.firstSubmitAttempted && vm.text == ""

def imagesError : Bool := vm.firstSubmitAttempted && vm.images == []

def postFormIsValid : Bool :=
  !(vm.nameError || vm.birthdateError calendar now || vm.universityError || vm.locationError ||
    vm.textError || vm.imagesError)

def submitForm : PostFormVM := { vm with firstSubmitAttempted := true }

/-- **What a form that is valid after a submit has.** -/
theorem postFormIsValid_iff {calendar now vm} (h : vm.firstSubmitAttempted = true) :
    postFormIsValid calendar now vm = true ↔
      vm.name ≠ "" ∧ (18 < calcAge calendar now vm.date ∧ calcAge calendar now vm.date < 30) ∧
        vm.university ≠ "" ∧ vm.location ≠ "" ∧ vm.text ≠ "" ∧ vm.images ≠ [] := by
  simp [postFormIsValid, nameError, birthdateError, universityError, locationError, textError,
    imagesError, h, and_assoc]

end PostFormVM

/-! ### The app with a clock -/

/-- The time, and the versions of posts with the times at which they were written. -/
structure PostLog where
  now : Int
  versions : List (Int × Document)

/-- The document that a write of one of the two paths leaves. -/
def App.written (s : App) : Op → Option Document
  | .setData _ post => some post.encode
  | .updateData _ id (.edit data) => (s.posts id).map (Change.edit data).commit
  | _ => none

namespace PostLog

/-- A call at the time `x.1`; the button submits a valid form only. -/
def noteCall (calendar : Calendar) (log : PostLog) (_ : App) (x : Int × Call) : Option PostLog :=
  if x.1 < log.now then none
  else match x.2 with
    | .submit _ form images _ _ =>
        let vm : PostFormVM := { form with images, firstSubmitAttempted := false }
        if vm.submitForm.postFormIsValid calendar x.1 then some { log with now := x.1 } else none
    | _ => some { log with now := x.1 }

/-- An answer at the time `r.1`. -/
def noteAnswer (log : PostLog) (s : App) (op : Op) (r : Int × Reply) : Option PostLog :=
  if r.1 < log.now then none
  else some
    { now := r.1
      versions := log.versions ++
        if r.2 = .ok then (s.written op).toList.map fun document => (r.1, document) else [] }

end PostLog

/-- The app, whose calls and answers have a time. -/
def posting (calendar : Calendar) : Service (App × PostLog) (Int × Call) Op (Int × Reply) :=
  app.watched Prod.snd Prod.snd (PostLog.noteCall calendar) PostLog.noteAnswer

/-- There are no posts, and the clock stands at `now`. -/
def posting.start (now : Int) : Config (App × PostLog) Op :=
  ⟨(App.start (fun _ => none) ∅, ⟨now, []⟩), []⟩

/-! ### The rules -/

/-- The texts that a post must have. -/
def requiredTexts : List String := ["name", "university", "location", "text"]

/-- A text that is there and not empty. -/
def Filled (v : Option Value) : Prop := ∃ s, s ≠ "" ∧ v = some (.string s)

/-- A birthday from which more than 18 years are completed. -/
def OldEnough (calendar : Calendar) (now : Int) (v : Option Value) : Prop :=
  ∃ birthday, v = some (.timestamp birthday) ∧ 18 < calcAge calendar now birthday

/-- A birthday from which fewer than 30 years are completed. -/
def YoungEnough (calendar : Calendar) (now : Int) (v : Option Value) : Prop :=
  ∀ birthday ∈ v.bind Value.asTimestamp, calcAge calendar now birthday < 30

/-- The rules that a document keeps meeting as time goes by. -/
structure Standing (calendar : Calendar) (now : Int) (document : Document) : Prop where
  texts : ∀ k ∈ requiredTexts, Filled (document k)
  pictures : pictures document ≠ []
  oldEnough : OldEnough calendar now (document "birthday")

/-- The rules that the form of a new post enforces, of a document written at `now`. -/
structure MeetsRules (calendar : Calendar) (now : Int) (document : Document) : Prop
    extends Standing calendar now document where
  youngEnough : YoungEnough calendar now (document "birthday")

/-- What the edit form would have to pass when it is saved. -/
structure FormPasses (calendar : Calendar) (now : Int) (vm : PostVM) : Prop where
  texts : vm.editName ≠ "" ∧ vm.editUniversity ≠ "" ∧ vm.editLocation ≠ "" ∧ vm.editText ≠ ""
  images : vm.editImages ≠ [] ∨ vm.additionalImages ≠ []
  oldEnough : 18 < calcAge calendar now vm.editDate

/-- The edit form of a save would pass the checks. -/
def SavePasses (calendar : Calendar) (p : App × PostLog) (x : Int × Call) : Prop :=
  match x.2 with
  | .save i => ∀ vm ∈ p.1.vms[i]?, FormPasses calendar x.1 vm
  | _ => True

/-- The birthday that an operation writes, or else the stored one. -/
def App.birthday (s : App) : Op → Option Value
  | .setData _ post => some (.timestamp post.birthday)
  | .updateData _ id (.edit data) =>
      (data "birthday").or ((s.posts id).bind fun document => document "birthday")
  | _ => none

/-- A write commits before the 30th birthday. -/
def CommitsInTime (calendar : Calendar) (p : App × PostLog) (op : Op) (r : Int × Reply) : Prop :=
  r.2 = .ok → YoungEnough calendar r.1 (p.1.birthday op)

instance (calendar : Calendar) (now : Int) (vm : PostVM) :
    Decidable (FormPasses calendar now vm) :=
  decidable_of_iff
    ((vm.editName ≠ "" ∧ vm.editUniversity ≠ "" ∧ vm.editLocation ≠ "" ∧ vm.editText ≠ "") ∧
      (vm.editImages ≠ [] ∨ vm.additionalImages ≠ []) ∧ 18 < calcAge calendar now vm.editDate)
    ⟨fun h => ⟨h.1, h.2.1, h.2.2⟩, fun h => ⟨h.texts, h.images, h.oldEnough⟩⟩

instance (calendar : Calendar) (p : App × PostLog) :
    ∀ x : Int × Call, Decidable (SavePasses calendar p x)
  | (t, .save i) =>
      inferInstanceAs (Decidable (∀ vm ∈ p.1.vms[i]?, FormPasses calendar t vm))
  | (_, .submit ..) | (_, .openPost ..) | (_, .fill ..) | (_, .addImage ..) | (_, .toggle ..)
  | (_, .deleteImages ..) | (_, .like _) | (_, .unlike _) | (_, .deletePost _) => isTrue trivial

instance (calendar : Calendar) (now : Int) (v : Option Value) :
    Decidable (YoungEnough calendar now v) :=
  inferInstanceAs
    (Decidable (∀ birthday ∈ v.bind Value.asTimestamp, calcAge calendar now birthday < 30))

instance (calendar : Calendar) (p : App × PostLog) (op : Op) (r : Int × Reply) :
    Decidable (CommitsInTime calendar p op r) :=
  inferInstanceAs (Decidable (r.2 = .ok → YoungEnough calendar r.1 (p.1.birthday op)))

/-! ### What the operations carry -/

/-- An update that empties no text and writes no birthday too late. -/
structure Harmless (calendar : Calendar) (now : Int) (params : Document) : Prop where
  texts : ∀ k ∈ requiredTexts, params k = none ∨ Filled (params k)
  oldEnough : params "birthday" = none ∨ OldEnough calendar now (params "birthday")

/-- A new post with its fields filled in. -/
structure Entered (calendar : Calendar) (now : Int) (post : Post) : Prop where
  name : post.name ≠ ""
  university : post.university ≠ ""
  location : post.location ≠ ""
  text : post.text ≠ ""
  oldEnough : 18 < calcAge calendar now post.birthday

def After.Fine (calendar : Calendar) (now : Int) : After → Prop
  | .addPost _ post => Entered calendar now post
  | .modifyPost _ editParams _ => Harmless calendar now editParams

/-- What the operation may still write. -/
def Op.Fine (calendar : Calendar) (now : Int) : Op → Prop
  | .upload _ _ _ after => after.Fine calendar now
  | .setData _ post => Entered calendar now post ∧ post.pictures ≠ []
  | .updateData _ _ (.edit data) => ∃ params newImages,
      data = PostVM.withPictures params newImages ∧ Harmless calendar now params ∧
        newImages ≠ []
  | _ => True

/-- The stored posts stand, every operation is fine, and the versions meet the rules. -/
structure Compliant (calendar : Calendar) (p : App × PostLog) (ops : List Op) : Prop where
  stored : ∀ id document, p.1.posts id = some document → Standing calendar p.2.now document
  issued : ∀ op ∈ ops, op.Fine calendar p.2.now
  versions : ∀ v ∈ p.2.versions, MeetsRules calendar v.1 v.2

variable {calendar : Calendar} {now now' : Int}

/-! ### As time goes by -/

theorem calcAge_mono {birthday : Int} (h : 0 < calcAge calendar now birthday) (hnow : now ≤ now') :
    calcAge calendar now birthday ≤ calcAge calendar now' birthday := by
  apply completedYears_mono _ (Calendar.localTime_le_iff.mpr hnow)
  by_contra hlater
  exact absurd h (not_lt.mpr (completedYears_of_lt (not_le.mp hlater)).1)

theorem OldEnough.mono {v : Option Value} (h : OldEnough calendar now v) (hnow : now ≤ now') :
    OldEnough calendar now' v := by
  obtain ⟨birthday, hv, hage⟩ := h
  exact ⟨birthday, hv, lt_of_lt_of_le hage (calcAge_mono (by omega) hnow)⟩

theorem Standing.mono {document : Document} (h : Standing calendar now document)
    (hnow : now ≤ now') : Standing calendar now' document :=
  ⟨h.texts, h.pictures, h.oldEnough.mono hnow⟩

theorem Harmless.mono {params : Document} (h : Harmless calendar now params) (hnow : now ≤ now') :
    Harmless calendar now' params :=
  ⟨h.texts, h.oldEnough.imp_right fun hold => hold.mono hnow⟩

theorem Entered.mono {post : Post} (h : Entered calendar now post) (hnow : now ≤ now') :
    Entered calendar now' post :=
  ⟨h.name, h.university, h.location, h.text,
    lt_of_lt_of_le h.oldEnough (calcAge_mono (lt_trans (by decide) h.oldEnough) hnow)⟩

theorem After.Fine.mono {after : After} (h : after.Fine calendar now) (hnow : now ≤ now') :
    after.Fine calendar now' := by
  cases after with
  | addPost currentUser post => exact Entered.mono h hnow
  | modifyPost i editParams newImages => exact Harmless.mono h hnow

theorem Op.Fine.mono {op : Op} (h : op.Fine calendar now) (hnow : now ≤ now') :
    op.Fine calendar now' := by
  cases op with
  | upload image rest urls after => exact After.Fine.mono h hnow
  | setData id post => exact ⟨h.1.mono hnow, h.2⟩
  | updateData i id change =>
    cases change with
    | edit updateData =>
      obtain ⟨params, newImages, rfl, hparams, himages⟩ := h
      exact ⟨params, newImages, rfl, hparams.mono hnow, himages⟩
    | like likerId => trivial
    | unlike unlikerId => trivial
  | getDocument i id => trivial
  | response i post => trivial
  | deleteImage urls index => trivial
  | deleteDocument id => trivial

/-! ### The writes -/

theorem standing_encode {post : Post} (h : Entered calendar now post)
    (hpictures : post.pictures ≠ []) : Standing calendar now post.encode := by
  refine ⟨?_, by rwa [pictures_encode], post.birthday, rfl, h.oldEnough⟩
  intro k hk
  simp only [requiredTexts, List.mem_cons, List.not_mem_nil, or_false] at hk
  rcases hk with rfl | rfl | rfl | rfl
  · exact ⟨post.name, h.name, rfl⟩
  · exact ⟨post.university, h.university, rfl⟩
  · exact ⟨post.location, h.location, rfl⟩
  · exact ⟨post.text, h.text, rfl⟩

theorem standing_edit {document params : Document} {newImages : List URL}
    (h : Standing calendar now document) (hparams : Harmless calendar now params)
    (himages : newImages ≠ []) :
    Standing calendar now (document.overwrite (PostVM.withPictures params newImages)) := by
  constructor
  case texts =>
    intro k hk
    have hne : k ≠ "pictures" := by
      rintro rfl
      exact absurd hk (by decide)
    have hsame := PostVM.withPictures_of_ne hne params newImages
    rcases hparams.texts k hk with hnone | ⟨s, hs, hv⟩
    · rw [Record.overwrite_of_none (hsame.trans hnone)]
      exact h.texts k hk
    · exact ⟨s, hs, Record.overwrite_of_some (hsame.trans hv) _⟩
  case pictures =>
    have hpictures : document.overwrite (PostVM.withPictures params newImages) "pictures" =
        some (.strings newImages) := Record.overwrite_of_some (assign_self _ _ _) _
    rwa [pictures_of_strings hpictures]
  case oldEnough =>
    have hsame : PostVM.withPictures params newImages "birthday" = params "birthday" :=
      PostVM.withPictures_of_ne (by decide) params newImages
    rcases hparams.oldEnough with hnone | ⟨birthday, hv, hage⟩
    · rw [Record.overwrite_of_none (hsame.trans hnone)]
      exact h.oldEnough
    · exact ⟨birthday, Record.overwrite_of_some (hsame.trans hv) _, hage⟩

/-- Likes are no part of the rules. -/
theorem standing_likes {document : Document} (h : Standing calendar now document) (v : Value) :
    Standing calendar now (assign document "likes" v) := by
  refine ⟨?_, h.pictures, h.oldEnough⟩
  intro k hk
  have hne : k ≠ "likes" := by
    rintro rfl
    exact absurd hk (by decide)
  rw [assign_of_ne hne]
  exact h.texts k hk

theorem standing_commit {change : Change} {document : Document} {i : Nat} {id : String}
    (h : Standing calendar now document) (hop : (Op.updateData i id change).Fine calendar now) :
    Standing calendar now (change.commit document) := by
  cases change with
  | edit data =>
    obtain ⟨params, newImages, rfl, hparams, himages⟩ := hop
    exact standing_edit h hparams himages
  | like likerId => exact standing_likes h _
  | unlike unlikerId => exact standing_likes h _

/-! ### The calls -/

/-- **An edit form that passes** issues a harmless update. -/
theorem harmless_editParams {vm : PostVM} (h : FormPasses calendar now vm) :
    Harmless calendar now vm.editParams := by
  have hwrites : ∀ {k v}, vm.formValues k = some v →
      vm.editParams k = none ∨ vm.editParams k = some v := by
    intro k v hv
    rw [PostVM.editParams_apply, hv]
    split
    · exact Or.inl rfl
    · exact Or.inr rfl
  obtain ⟨hname, huniversity, hlocation, htext⟩ := h.texts
  constructor
  case texts =>
    intro k hk
    simp only [requiredTexts, List.mem_cons, List.not_mem_nil, or_false] at hk
    rcases hk with rfl | rfl | rfl | rfl
    · exact (hwrites rfl).imp_right fun hv => ⟨vm.editName, hname, hv⟩
    · exact (hwrites rfl).imp_right fun hv => ⟨vm.editUniversity, huniversity, hv⟩
    · exact (hwrites rfl).imp_right fun hv => ⟨vm.editLocation, hlocation, hv⟩
    · exact (hwrites rfl).imp_right fun hv => ⟨vm.editText, htext, hv⟩
  case oldEnough => exact (hwrites rfl).imp_right fun hv => ⟨vm.editDate, hv, h.oldEnough⟩

theorem fine_addImages {s : App} {after : After} {images : List UIImage}
    {currentUser : Option String} (himages : images ≠ []) (hafter : after.Fine calendar now) :
    ∀ op ∈ s.addImages currentUser images after, op.Fine calendar now := by
  cases currentUser with
  | none => exact List.forall_mem_nil _
  | some user =>
    cases images with
    | nil => exact absurd rfl himages
    | cons image rest =>
      intro op hop
      obtain rfl := List.mem_singleton.mp hop
      exact hafter

theorem fine_modifyPost {i : Nat} {vm : PostVM} {params : Document} {newImages : List URL}
    (hparams : Harmless calendar now params) (himages : newImages ≠ []) :
    ∀ op ∈ modifyPost i vm (PostVM.withPictures params newImages), op.Fine calendar now := by
  intro op hop
  obtain ⟨id, rfl⟩ := mem_modifyPost hop
  exact ⟨params, newImages, rfl, hparams, himages⟩

theorem fine_editPostAndImages {s : App} {i : Nat} {vm : PostVM}
    (h : FormPasses calendar now vm) :
    ∀ op ∈ editPostAndImages s i vm, op.Fine calendar now := by
  have hparams := harmless_editParams h
  unfold editPostAndImages
  by_cases himages : vm.additionalImages = []
  · rw [if_neg (not_not.mpr himages)]
    have hkept : vm.editImages ≠ [] := h.images.resolve_right (not_not.mpr himages)
    intro op hop
    rcases List.mem_append.mp hop with hop | hop
    · exact fine_modifyPost hparams hkept op hop
    · obtain ⟨index, rfl⟩ := mem_startDeletion hop
      trivial
  · rw [if_pos himages]
    exact fine_addImages himages hparams

/-- **The operations of a call are fine**, where a submitted form is valid and a saved
one passes. -/
theorem fine_call {s s' : App} {x : Call} {new : List Op} (h : Called s x s' new)
    (hsubmit : ∀ currentUser form images id creationDate,
      x = .submit currentUser form images id creationDate → images ≠ [] ∧
        ∀ post, formCompletion currentUser form id creationDate = some post →
          Entered calendar now post)
    (hsave : ∀ i, x = .save i → ∀ vm ∈ s.vms[i]?, FormPasses calendar now vm) :
    ∀ op ∈ new, op.Fine calendar now := by
  cases h with
  | submitted currentUser form images id creationDate p hp =>
    obtain ⟨himages, hentered⟩ := hsubmit _ _ _ _ _ rfl
    exact fine_addImages himages (hentered p hp)
  | opened currentUser id document p hdoc hdecode => exact List.forall_mem_nil _
  | filled i form vm hvm => exact List.forall_mem_nil _
  | imageAdded i image vm hvm => exact List.forall_mem_nil _
  | toggled i url vm hvm hurl => exact List.forall_mem_nil _
  | imagesDeleted i imagesToRetain deleted vm hvm hretain hdeleted =>
    exact List.forall_mem_nil _
  | saved i vm hvm hshows => exact fine_editPostAndImages (hsave i rfl vm hvm)
  | liked i vm =>
    intro op hop
    obtain ⟨id, likerId, rfl⟩ := mem_likePost hop
    trivial
  | unliked i vm =>
    intro op hop
    obtain ⟨id, unlikerId, rfl⟩ := mem_unlikePost hop
    trivial
  | postDeleted i vm =>
    intro op hop
    obtain ⟨id, rfl⟩ := mem_deletePost hop
    trivial

theorem posts_call {s s' : App} {x : Call} {new : List Op} (h : Called s x s' new) :
    s'.posts = s.posts := by
  cases h <;> rfl

/-- A submitted form was valid. -/
theorem entered_of_noteCall {log log' : PostLog} {s : App} {t : Int} {currentUser : Option String}
    {form : PostForm} {images : List UIImage} {id : String} {creationDate : Int}
    (h : log.noteCall calendar s (t, .submit currentUser form images id creationDate) = some log') :
    images ≠ [] ∧ ∀ post, formCompletion currentUser form id creationDate = some post →
      Entered calendar t post := by
  obtain ⟨-, h⟩ := Option.ite_none_left_eq_some.mp h
  obtain ⟨hvalid, -⟩ := Option.ite_none_right_eq_some.mp h
  obtain ⟨hname, hage, huniversity, hlocation, htext, himages⟩ :=
    (PostFormVM.postFormIsValid_iff rfl).mp hvalid
  refine ⟨himages, ?_⟩
  intro post hpost
  obtain ⟨userId, -, rfl⟩ := Option.map_eq_some_iff.mp hpost
  exact ⟨hname, huniversity, hlocation, htext, hage.1⟩

theorem log_of_noteCall {log log' : PostLog} {s : App} {x : Int × Call}
    (h : log.noteCall calendar s x = some log') :
    log.now ≤ x.1 ∧ log' = { log with now := x.1 } := by
  obtain ⟨hnow, h⟩ := Option.ite_none_left_eq_some.mp h
  refine ⟨not_lt.mp hnow, ?_⟩
  obtain ⟨t, x⟩ := x
  cases x with
  | submit currentUser form images id creationDate =>
    obtain ⟨-, heq⟩ := Option.ite_none_right_eq_some.mp h
    exact (Option.some.inj heq).symm
  | _ => exact (Option.some.inj h).symm

theorem compliant_call {p q : App × PostLog} {ops new : List Op} {x : Int × Call}
    (h : Compliant calendar p ops) (hpasses : SavePasses calendar p x)
    (hcall : (posting calendar).call p x = some (q, new)) : Compliant calendar q (ops ++ new) := by
  obtain ⟨s, log⟩ := p
  obtain ⟨s', log'⟩ := q
  obtain ⟨t, x⟩ := x
  obtain ⟨hnote, hcall⟩ := Service.watched_call hcall
  have hcalled := called_of_call hcall
  obtain ⟨hnow, rfl⟩ := log_of_noteCall hnote
  refine ⟨?_, ?_, h.versions⟩
  · rw [posts_call hcalled]
    exact fun id document hdoc => (h.stored id document hdoc).mono hnow
  · intro op hop
    rcases List.mem_append.mp hop with hold | hnew
    · exact (h.issued op hold).mono hnow
    · refine fine_call hcalled ?_ ?_ op hnew
      · rintro currentUser form images id creationDate rfl
        exact entered_of_noteCall hnote
      · rintro i rfl
        exact hpasses

/-! ### The answers -/

/-- The operations of an answer are fine. -/
theorem fine_answer {s s' : App} {op : Op} {r : Reply} {new : List Op}
    (h : Answered s op r s' new) (hop : op.Fine calendar now) :
    ∀ op' ∈ new, op'.Fine calendar now := by
  cases h with
  | failed op hop' => exact List.forall_mem_nil _
  | uploaded image rest urls after url hfresh =>
    cases rest with
    | cons image' rest =>
      intro op' hmem
      obtain rfl := List.mem_singleton.mp hmem
      exact hop
    | nil =>
      have hne : urls ++ [url] ≠ [] := List.concat_ne_nil _ _
      cases after with
      | addPost currentUser post =>
        intro op' hmem
        obtain ⟨id, rfl⟩ := mem_addPost hmem
        exact ⟨⟨hop.name, hop.university, hop.location, hop.text, hop.oldEnough⟩, hne⟩
      | modifyPost i editParams newImages =>
        intro op' hmem
        simp only [App.addImageHelper, App.uploaded] at hmem
        split at hmem
        · exact fine_modifyPost hop (List.append_ne_nil_of_right_ne_nil _ hne) op' hmem
        · exact absurd hmem List.not_mem_nil
  | created id p => exact List.forall_mem_nil _
  | updated i id change document hdoc =>
    intro op' hmem
    obtain rfl := List.mem_singleton.mp hmem
    trivial
  | missing i id => exact List.forall_mem_nil _
  | read i id p =>
    intro op' hmem
    obtain rfl := List.mem_singleton.mp hmem
    trivial
  | delivered i p => exact List.forall_mem_nil _
  | removed urls index =>
    intro op' hmem
    obtain rfl := mem_nextDeletion hmem
    trivial
  | kept urls index =>
    intro op' hmem
    obtain rfl := mem_nextDeletion hmem
    trivial
  | deleted id => exact List.forall_mem_nil _

/-- The stored posts stand after an answer. -/
theorem standing_answer {s s' : App} {op : Op} {r : Reply} {new : List Op}
    (h : Answered s op r s' new) (hop : op.Fine calendar now)
    (hstored : ∀ id document, s.posts id = some document → Standing calendar now document)
    (id : String) (document : Document) (hdoc : s'.posts id = some document) :
    Standing calendar now document := by
  cases h with
  | created id' p =>
    rcases Record.of_update hdoc with ⟨-, hnew⟩ | ⟨-, hold⟩
    · obtain rfl := Option.some.inj hnew
      exact standing_encode hop.1 hop.2
    · exact hstored id document hold
  | updated i id' change stored hdoc' =>
    rcases Record.of_update hdoc with ⟨-, hnew⟩ | ⟨-, hold⟩
    · obtain rfl := Option.some.inj hnew
      exact standing_commit (hstored id' stored hdoc') hop
    · exact hstored id document hold
  | deleted id' =>
    rcases Record.of_update hdoc with ⟨-, hnew⟩ | ⟨-, hold⟩
    · exact absurd hnew.symm (Option.some_ne_none _)
    · exact hstored id document hold
  | failed _ _ => exact hstored id document hdoc
  | uploaded _ _ _ _ _ _ => exact hstored id document hdoc
  | missing _ _ => exact hstored id document hdoc
  | read _ _ _ => exact hstored id document hdoc
  | delivered _ _ => exact hstored id document hdoc
  | removed _ _ => exact hstored id document hdoc
  | kept _ _ => exact hstored id document hdoc

theorem birthday_written {s : App} {op : Op} {document : Document}
    (h : s.written op = some document) : document "birthday" = s.birthday op := by
  unfold App.written at h
  split at h
  · obtain rfl := Option.some.inj h
    rfl
  · obtain ⟨stored, hdoc, rfl⟩ := Option.map_eq_some_iff.mp h
    rw [App.birthday, hdoc]
    rfl
  · exact absurd h.symm (Option.some_ne_none _)

/-- What a write leaves stands. -/
theorem standing_written {s : App} {op : Op} (hop : op.Fine calendar now)
    (hstored : ∀ id document, s.posts id = some document → Standing calendar now document)
    {document : Document} (h : s.written op = some document) : Standing calendar now document := by
  unfold App.written at h
  split at h
  · obtain rfl := Option.some.inj h
    exact standing_encode hop.1 hop.2
  · obtain ⟨stored, hdoc, rfl⟩ := Option.map_eq_some_iff.mp h
    exact standing_commit (hstored _ stored hdoc) hop
  · exact absurd h.symm (Option.some_ne_none _)

theorem compliant_answer {p q : App × PostLog} {pre post new : List Op} {op : Op} {r : Int × Reply}
    (h : Compliant calendar p (pre ++ op :: post)) (htime : CommitsInTime calendar p op r)
    (hanswer : (posting calendar).answer p op r = some (q, new)) :
    Compliant calendar q (pre ++ post ++ new) := by
  obtain ⟨s, log⟩ := p
  obtain ⟨s', log'⟩ := q
  obtain ⟨t, r⟩ := r
  obtain ⟨hnote, hanswer⟩ := Service.watched_answer hanswer
  have hanswered := answered_of_answer hanswer
  obtain ⟨hnow, hlog⟩ := Option.ite_none_left_eq_some.mp hnote
  obtain rfl := Option.some.inj hlog
  have hle : log.now ≤ t := not_lt.mp hnow
  have hop : op.Fine calendar t := (h.issued op (Service.mem_pending_iff.mpr (Or.inl rfl))).mono hle
  have hstored : ∀ id document, s.posts id = some document → Standing calendar t document :=
    fun id document hdoc => (h.stored id document hdoc).mono hle
  refine ⟨standing_answer hanswered hop hstored, ?_, ?_⟩
  · intro op' hmem
    rcases List.mem_append.mp hmem with hold | hnew
    · exact (h.issued op' (Service.mem_pending_iff.mpr (Or.inr hold))).mono hle
    · exact fine_answer hanswered hop op' hnew
  · intro v hv
    rcases List.mem_append.mp hv with hold | hnew
    · exact h.versions v hold
    · obtain ⟨hok, hnew⟩ :
          r = .ok ∧ v ∈ (s.written op).toList.map fun document => (t, document) := by
        by_cases hok : r = .ok
        · rw [if_pos hok] at hnew
          exact ⟨hok, hnew⟩
        · rw [if_neg hok] at hnew
          exact absurd hnew List.not_mem_nil
      obtain ⟨document, hdoc, rfl⟩ := List.mem_map.mp hnew
      have hwritten : s.written op = some document := Option.mem_toList.mp hdoc
      have hyoung : YoungEnough calendar t (document "birthday") := by
        rw [birthday_written hwritten]
        exact htime hok
      exact ⟨standing_written hop hstored hwritten, hyoung⟩

/-- **Every version meets the rules** in a run whose saved edit forms pass and whose
writes commit in time. -/
theorem versions_meet_rules {calendar : Calendar} {now : Int}
    {es : List (Event (Int × Call) (Int × Reply))} {c : Config (App × PostLog) Op}
    (hpasses : (posting calendar).machine.Along
      (Service.OnStep (SavePasses calendar) (CommitsInTime calendar)) (posting.start now) es)
    (hrun : (posting calendar).machine.run (posting.start now) es = some c) :
    ∀ v ∈ c.core.2.versions, MeetsRules calendar v.1 v.2 := by
  have hstart : Compliant calendar (posting.start now).core (posting.start now).pending :=
    ⟨fun id document hdoc => absurd hdoc.symm (Option.some_ne_none _),
      List.forall_mem_nil _, List.forall_mem_nil _⟩
  refine (Service.run_inv (I := fun p ops => Compliant calendar p ops) ?_ ?_ hstart hpasses
    hrun).versions
  · intro p ops x q new h hP hcall
    exact compliant_call h hP hcall
  · intro p pre op post r q new h hP hanswer
    exact compliant_answer h (Service.onStep_answer.mp hP) hanswer

/-- Ann submits a post of Beth, who was born on 5 March 1997, and it is stored. -/
def bethsPost : List (Event (Int × Call) (Int × Reply)) :=
  [.call (april2022, .submit (some "ann")
      ⟨"Beth", 857520000000, "Duke University", "Durham", "Tall", []⟩ ["png"] "p" april2022),
    .answer 0 (april2022, .uploaded "a"), .answer 0 (april2022, .ok)]

/-- Ann opens the post, fills in another name and saves. -/
def renamed (name : String) : List (Event (Int × Call) (Int × Reply)) :=
  [.call (april2022, .openPost (some "ann") "p"),
    .call (april2022, .fill 0 ⟨name, 857520000000, "Duke University", "Durham", "Tall", []⟩),
    .call (april2022, .save 0), .answer 0 (april2022, .ok)]

/-- The names of the versions. -/
def versionNames (c : Config (App × PostLog) Op) : List (Option String) :=
  c.core.2.versions.map fun v => (v.2 "name").bind Value.asString

theorem versions_meet_rules_example : ∃ c,
    (posting ⟨0⟩).machine.run (posting.start april2022) (bethsPost ++ renamed "Betty") = some c ∧
      versionNames c = [some "Beth", some "Betty"] ∧
        ∀ v ∈ c.core.2.versions, MeetsRules ⟨0⟩ v.1 v.2 := by
  have hrun : ((posting ⟨0⟩).machine.run (posting.start april2022)
      (bethsPost ++ renamed "Betty")).map versionNames = some [some "Beth", some "Betty"] := by
    decide +kernel
  obtain ⟨c, hc, hnames⟩ := Option.map_eq_some_iff.mp hrun
  exact ⟨c, hc, hnames, versions_meet_rules (by decide +kernel) hc⟩

/-- The edit form of a stored post is saved without a name. -/
theorem version_without_name : ¬ ∀ (calendar : Calendar) (now : Int)
    (es : List (Event (Int × Call) (Int × Reply))) (c : Config (App × PostLog) Op),
      (posting calendar).machine.run (posting.start now) es = some c →
        ∀ v ∈ c.core.2.versions, MeetsRules calendar v.1 v.2 := by
  intro h
  have hrun : ((posting ⟨0⟩).machine.run (posting.start april2022)
      (bethsPost ++ renamed "")).map versionNames = some [some "Beth", some ""] := by
    decide +kernel
  obtain ⟨c, hc, hnames⟩ := Option.map_eq_some_iff.mp hrun
  have hmem : some "" ∈ versionNames c := by
    rw [hnames]
    decide
  obtain ⟨v, hv, hname⟩ := List.mem_map.mp hmem
  obtain ⟨name, hfilled, hvalue⟩ := (h _ _ _ c hc v hv).texts "name" (by decide)
  rw [hvalue] at hname
  exact hfilled (Option.some.inj hname)

end Subtle.Feed
