import Subtle.Firestore.Value
import Subtle.Lib.Machine
import Mathlib.Logic.Function.Basic

/-!
# The security rules

`allows` is `firestore.rules`, one branch for each `match` block.  The second half
is the `Posts` collection under these rules: requests of any signed-in users, with
any contents, each admitted or denied.

Anyone signed in may update a post, its `posterId` included, and only then does the
rule for `delete` look at `posterId`.  `deletes_by_creator` says what is left of
post ownership: as long as no admitted update of a run changes a `posterId`, every
post is deleted by the user that was recorded when it was created.
-/

namespace Subtle.Firestore

open Subtle.Lib

/-! ### The rules -/

/-- `write` in a rule is `create`, `update` and `delete`. -/
inductive Method where
  | read
  | create
  | update
  | delete
  deriving DecidableEq

structure Request where
  /-- `request.auth.uid`, absent when `request.auth` is null -/
  auth : Option String
  method : Method
  /-- the segments below `/databases/{database}/documents` -/
  path : List String
  /-- `resource.data`, absent when there is no such document -/
  resource : Option Document

/-- `request.auth != null` -/
def Request.signedIn (r : Request) : Bool := r.auth.isSome

/-- `request.auth.uid == resource.data.posterId`; reading a field that is not there
is an error, which denies. -/
def Request.isPoster (r : Request) : Bool :=
  match r.auth, r.resource with
  | some uid, some doc => doc "posterId" = some (.string uid)
  | _, _ => false

def allows (r : Request) : Bool :=
  match r.path with
  | ["Users", userId] =>
      match r.method with
      | .read => r.signedIn
      | .create | .update | .delete => r.signedIn && r.auth = some userId
  | ["Posts", _] =>
      match r.method with
      | .read | .create | .update => r.signedIn
      | .delete => r.signedIn && r.isPoster
  | "Messages" :: _ => r.signedIn
  | "Recents" :: _ => r.signedIn
  | "comments" :: _ =>
      match r.method with
      | .read | .create | .update => r.signedIn
      | .delete => false
  | _ => false

/-! ### Requests on posts -/

/-- A write of one post, with the whole document that it leaves. -/
inductive PostWrite where
  | create (doc : Document)
  | update (doc : Document)
  | delete

def PostWrite.method : PostWrite → Method
  | .create _ => .create
  | .update _ => .update
  | .delete => .delete

structure PostRequest where
  uid : String
  postId : String
  write : PostWrite

/-- A stored post, and the `posterId` it was created with. -/
structure StoredPost where
  document : Document
  createdBy : Option Value

abbrev Posts := String → Option StoredPost

/-- A request is admitted when the rules allow it and the document is absent for a
`create` and present for the rest. -/
def admits (s : Posts) (r : PostRequest) : Bool :=
  let stored := s r.postId
  (match r.write with
    | .create _ => stored.isNone
    | .update _ | .delete => stored.isSome) &&
  allows { auth := some r.uid, method := r.write.method, path := ["Posts", r.postId],
           resource := stored.map StoredPost.document }

/-- What an admitted request leaves at its post. -/
def PostWrite.result (old : Option StoredPost) : PostWrite → Option StoredPost
  | .create doc => some ⟨doc, doc "posterId"⟩
  | .update doc => old.map fun p => { p with document := doc }
  | .delete => none

def postStep (s : Posts) (r : PostRequest) : Posts :=
  if admits s r then Function.update s r.postId (r.write.result (s r.postId)) else s

/-- The collection; a denied request changes nothing. -/
def posts : Machine Posts PostRequest := ⟨fun s r => some (postStep s r)⟩

/-- The empty collection. -/
def noPosts : Posts := fun _ => none

/-- If the request is an admitted delete, its user is the one recorded when the
post was created. -/
def DeletedByCreator (s : Posts) (r : PostRequest) : Prop :=
  admits s r = true → r.write.method = .delete →
    ∀ p ∈ s r.postId, p.createdBy = some (.string r.uid)

/-- If the request is an admitted update, it leaves the `posterId` as it is. -/
def KeepsPosterId (s : Posts) (r : PostRequest) : Prop :=
  admits s r = true → r.write.method = .update →
    ∀ p ∈ s r.postId, ∀ q ∈ r.write.result (s r.postId),
      q.document "posterId" = p.document "posterId"

instance (s : Posts) (r : PostRequest) : Decidable (DeletedByCreator s r) :=
  inferInstanceAs (Decidable (_ → _ → ∀ p ∈ s r.postId, _))

instance (s : Posts) (r : PostRequest) : Decidable (KeepsPosterId s r) :=
  inferInstanceAs (Decidable (_ → _ → ∀ p ∈ s r.postId, ∀ q ∈ r.write.result (s r.postId), _))

/-- Every stored `posterId` is the one of the creation. -/
def CreatorRecorded (s : Posts) : Prop :=
  ∀ id, ∀ p ∈ s id, p.document "posterId" = p.createdBy

theorem isPoster_of_admits_delete {s : Posts} {r : PostRequest} (h : admits s r = true)
    (hd : r.write.method = .delete) {p : StoredPost} (hp : s r.postId = some p) :
    p.document "posterId" = some (.string r.uid) := by
  cases hw : r.write with
  | delete => simpa [admits, hw, hp, PostWrite.method, allows, Request.signedIn,
      Request.isPoster] using h
  | create doc => rw [hw] at hd; exact absurd hd Method.noConfusion
  | update doc => rw [hw] at hd; exact absurd hd Method.noConfusion

theorem creatorRecorded_step {s : Posts} {r : PostRequest} (hs : CreatorRecorded s)
    (hr : KeepsPosterId s r) : CreatorRecorded (postStep s r) := by
  intro id p hp
  unfold postStep at hp
  split_ifs at hp with hadm
  · by_cases hid : id = r.postId
    · subst hid
      rw [Function.update_self] at hp
      cases hw : r.write with
      | create doc =>
        rw [hw] at hp
        rw [← Option.some.inj hp]
      | update doc =>
        rw [hw] at hp
        obtain ⟨q, hq, rfl⟩ := Option.map_eq_some_iff.mp hp
        show doc "posterId" = q.createdBy
        rw [← hs _ q hq]
        exact hr hadm (by rw [hw]; rfl) q hq ⟨doc, q.createdBy⟩ (by rw [hw]; exact hp)
      | delete => rw [hw] at hp; exact absurd hp (Option.some_ne_none p).symm
    · rw [Function.update_of_ne hid] at hp
      exact hs id p hp
  · exact hs id p hp

/-- **Where no admitted update changes a `posterId`, every post is deleted by the
user that was recorded when it was created.** -/
theorem deletes_by_creator {rs : List PostRequest} (h : posts.Along KeepsPosterId noPosts rs) :
    posts.Along DeletedByCreator noPosts rs := by
  refine Machine.along_of_inv (I := CreatorRecorded) (P := KeepsPosterId) ?_ ?_ ?_ h
  · intro s r s' hs hr hstep
    rw [← Option.some.inj hstep]
    exact creatorRecorded_step hs hr
  · intro s r hs _ hadm hd p hp
    rw [← hs _ p hp]
    exact isPoster_of_admits_delete hadm hd hp
  · intro id p hp
    exact absurd hp (Option.some_ne_none p).symm

/-- A document with nothing but its poster. -/
def postBy (uid : String) : Document := fun k => if k = "posterId" then some (.string uid) else none

theorem deletes_by_creator_example :
    posts.Along DeletedByCreator noPosts
      [⟨"ann", "p", .create (postBy "ann")⟩, ⟨"bob", "p", .update (postBy "ann")⟩,
        ⟨"bob", "p", .delete⟩, ⟨"ann", "p", .delete⟩] :=
  deletes_by_creator (by decide)

/-- Bob makes Ann's post his own and deletes it. -/
theorem deletes_by_stranger : ¬ ∀ rs, posts.Along DeletedByCreator noPosts rs := by
  intro h
  have hrun := h [⟨"ann", "p", .create (postBy "ann")⟩, ⟨"bob", "p", .update (postBy "bob")⟩,
    ⟨"bob", "p", .delete⟩]
  exact absurd hrun (by decide)

end Subtle.Firestore
