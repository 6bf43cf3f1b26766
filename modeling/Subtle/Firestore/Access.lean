import Subtle.Firestore.Conversation
import Subtle.Lib.Footprint

/-!
# The store under its rules

Requests of any clients, signed in or not, each setting or deleting one document, whatever
it holds.  A request that the rules deny changes nothing.

* `entitled`: who has a say in a document.
* `documents_of_entitled`: **every document is, after any requests, what the requests of the
  clients entitled to it leave by themselves**, and each of them has a say.
* `permanent_iff`: **the documents that no requests remove are the comments and what no rule
  speaks of**.
-/

namespace Subtle.Firestore

open Subtle.Lib

/-! ### Requests -/

/-- A write of one document, with the whole document that it leaves. -/
inductive DocumentWrite where
  | set (document : Document)
  | delete

namespace DocumentWrite

/-- Setting a document creates it, or updates the one that is there. -/
def method (old : Option Document) : DocumentWrite → Method
  | set _ => if old.isSome then .update else .create
  | delete => .delete

def result : DocumentWrite → Option Document
  | set document => some document
  | delete => none

end DocumentWrite

structure WriteRequest where
  auth : Option String
  path : List String
  write : DocumentWrite

def WriteRequest.admitted (s : Store) (r : WriteRequest) : Bool :=
  allows { auth := r.auth, method := r.write.method (s r.path), path := r.path,
           resource := s r.path }

def writeStep (s : Store) (r : WriteRequest) : Store :=
  if r.admitted s then Function.update s r.path r.write.result else s

/-- The store; a denied request changes nothing. -/
def store : Machine Store WriteRequest := .total writeStep

/-! ### Who has a say -/

/-- Who may write the document at a path: the user in their own profile, anyone signed in
where the rules ask for no more, and nobody elsewhere. -/
def entitled : List String → Option String → Bool
  | ["Users", userId], auth => auth = some userId
  | ["Posts", _], auth | "Messages" :: _, auth | "Recents" :: _, auth | "comments" :: _, auth =>
      auth.isSome
  | _, _ => false

variable {s : Store} {r : WriteRequest} {path : List String} {auth : Option String}

/-- The rules allow a write to entitled clients only. -/
theorem entitled_of_allows {method : Method} (hwrite : method ≠ .read)
    {resource : Option Document} (h : allows ⟨auth, method, path, resource⟩ = true) :
    entitled path auth = true := by
  unfold allows at h
  split at h
  case h_1 => cases method <;> simp_all [entitled, Request.signedIn]
  case h_2 => cases method <;> simp_all [entitled, Request.signedIn]
  case h_3 => simp_all [entitled, Request.signedIn]
  case h_4 => simp_all [entitled, Request.signedIn]
  case h_5 => cases method <;> simp_all [entitled, Request.signedIn]
  case h_6 => exact absurd h Bool.false_ne_true

theorem method_ne_read (w : DocumentWrite) (old : Option Document) : w.method old ≠ .read := by
  cases w with
  | set document =>
    show (if old.isSome then Method.update else Method.create) ≠ Method.read
    split <;> decide
  | delete =>
    show Method.delete ≠ Method.read
    decide

theorem writeStep_of_ne (h : r.path ≠ path) : writeStep s r path = s path := by
  unfold writeStep
  split
  · exact Function.update_of_ne h.symm _ _
  · rfl

theorem writeStep_self (s : Store) (r : WriteRequest) :
    writeStep s r r.path = if r.admitted s then r.write.result else s r.path := by
  unfold writeStep
  split
  · exact Function.update_self _ _ _
  · rfl

/-- **Who has a say in a document.** -/
theorem footprint (path : List String) : Footprint writeStep (fun s => s path)
    fun r => r.path = path ∧ entitled path r.auth = true := by
  constructor
  · intro s r hnot
    by_cases hpath : r.path = path
    · subst hpath
      rw [writeStep_self, if_neg]
      exact fun hadmitted => hnot ⟨rfl, entitled_of_allows (method_ne_read _ _) hadmitted⟩
    · exact writeStep_of_ne hpath
  · rintro s t r ⟨rfl, -⟩ (heq : s r.path = t r.path)
    rw [writeStep_self, writeStep_self, WriteRequest.admitted, WriteRequest.admitted, heq]

theorem allows_set (h : entitled path auth = true) {method : Method}
    (hset : method = .create ∨ method = .update) (resource : Option Document) :
    allows ⟨auth, method, path, resource⟩ = true := by
  unfold entitled at h
  split at h
  all_goals rcases hset with rfl | rfl <;> simp_all [allows, Request.signedIn]

/-- **Every document is, after any requests, what the requests of the clients entitled to it
leave by themselves**, and a client is entitled to a document exactly if some request of
theirs can change it. -/
theorem documents_of_entitled (path : List String) :
    (∀ (s : Store) (rs : List WriteRequest), (store.run s rs).map (fun t => t path) =
      (store.run s (rs.filter fun r => r.path = path ∧ entitled path r.auth = true)).map
        fun t => t path) ∧
    ∀ auth, entitled path auth = true ↔
      ∃ s w t, store.run s [⟨auth, path, w⟩] = some t ∧ t path ≠ s path := by
  constructor
  · intro s rs
    rw [store, Machine.run_total, Machine.run_total]
    exact congrArg some ((footprint path).foldl_filter s rs)
  · intro auth
    constructor
    · intro hentitled
      refine ⟨fun _ => none, .set fun _ => none, _, Machine.run_total _ _ _, ?_⟩
      have hadmitted : WriteRequest.admitted (fun _ => none)
          ⟨auth, path, .set fun _ => none⟩ = true := allows_set hentitled (Or.inl rfl) none
      show writeStep (fun _ => none) ⟨auth, path, .set fun _ => none⟩ path ≠ none
      rw [writeStep_self (fun _ => none) ⟨auth, path, .set fun _ => none⟩, if_pos hadmitted]
      exact Option.some_ne_none _
    · rintro ⟨s, w, t, hrun, hne⟩
      by_contra hnot
      apply hne
      obtain rfl := Option.some.inj ((Machine.run_total writeStep s _).symm.trans hrun)
      exact (footprint path).outside s ⟨auth, path, w⟩ fun h => hnot h.2

/-! ### Documents that stay -/

/-- No requests remove the document, once it is there. -/
def Permanent (path : List String) : Prop :=
  ∀ (s t : Store) (rs : List WriteRequest), s path ≠ none → store.run s rs = some t →
    t path ≠ none

theorem allows_delete_of_removed (hsome : s path ≠ none) (hnone : writeStep s r path = none) :
    allows ⟨r.auth, .delete, path, s path⟩ = true := by
  by_cases hpath : r.path = path
  · subst hpath
    rw [writeStep_self] at hnone
    split at hnone
    · rename_i hadmitted
      cases hw : r.write with
      | set document => rw [hw] at hnone; exact absurd hnone (Option.some_ne_none _)
      | delete => rwa [WriteRequest.admitted, hw] at hadmitted
    · exact absurd hnone hsome
  · exact absurd ((writeStep_of_ne hpath).symm.trans hnone) hsome

theorem permanent_of_forall (h : ∀ auth resource, allows ⟨auth, .delete, path, resource⟩ = false) :
    Permanent path := by
  intro s t rs hsome hrun
  refine Machine.run_inv_of_step (M := store) (I := fun s => s path ≠ none) ?_ hsome hrun
  intro s r s' hsome hstep
  obtain rfl := Option.some.inj hstep
  intro hnone
  exact absurd (allows_delete_of_removed hsome hnone) (by rw [h]; exact Bool.false_ne_true)

/-- A document with nothing but its poster, which that user may delete wherever anyone may. -/
theorem allows_delete (hcomments : path.head? ≠ some "comments") {uid : String}
    (h : entitled path (some uid) = true) :
    allows ⟨some uid, .delete, path, some (postBy uid)⟩ = true := by
  unfold entitled at h
  split at h
  all_goals simp_all [allows, Request.signedIn, Request.isPoster, postBy]

/-- **The documents that no requests remove**: the comments, and the documents that no rule
lets anyone write. -/
theorem permanent_iff (path : List String) :
    Permanent path ↔ path.head? = some "comments" ∨ ∀ auth, entitled path auth = false := by
  constructor
  · intro hpermanent
    by_contra hnot
    obtain ⟨hcomments, hentitled⟩ := not_or.mp hnot
    obtain ⟨auth, hauth⟩ := not_forall.mp hentitled
    rw [Bool.not_eq_false] at hauth
    obtain ⟨uid, rfl⟩ : ∃ uid, auth = some uid := by
      refine Option.ne_none_iff_exists'.mp ?_
      rintro rfl
      unfold entitled at hauth
      split at hauth <;> simp at hauth
    have hdelete : WriteRequest.admitted (fun _ => some (postBy uid))
        ⟨some uid, path, .delete⟩ = true := allows_delete hcomments hauth
    refine hpermanent (fun _ => some (postBy uid)) _ [⟨some uid, path, .delete⟩]
      (Option.some_ne_none _) (Machine.run_total _ _ _) ?_
    show writeStep (fun _ => some (postBy uid)) ⟨some uid, path, .delete⟩ path = none
    rw [writeStep_self (fun _ => some (postBy uid)) ⟨some uid, path, .delete⟩, if_pos hdelete]
    rfl
  · rintro (hcomments | hnobody)
    · apply permanent_of_forall
      intro auth resource
      cases path with
      | nil => rfl
      | cons collection rest =>
        obtain rfl := Option.some.inj hcomments
        rfl
    · apply permanent_of_forall
      intro auth resource
      by_contra hallowed
      rw [Bool.not_eq_false] at hallowed
      exact absurd (entitled_of_allows Method.noConfusion hallowed) (by rw [hnobody]; decide)

end Subtle.Firestore
