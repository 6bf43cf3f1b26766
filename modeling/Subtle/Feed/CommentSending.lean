import Subtle.Auth.Names
import Subtle.Feed.CommentList
import Subtle.Feed.Post
import Subtle.Lib.Conservation

/-!
# Sending a comment

`sendComment` asks for the name of the user who is signed in, and the handler of the answer
writes the comment, dated then, to a new document under the post.  Any number of comments
may be on their way, the profiles may be rewritten meanwhile, and each of the two requests
may fail.

* `commentSending`: the comments of all posts, and the clients that send them.
* `comments_stored`: **every document is the comment of one send**, which no two of them
  share, and has a name that the profile of its owner had during the run.
* `comments_arrive`: **a view opened at rest shows one comment for every send to its post**,
  if all requests succeed.
-/

namespace Subtle.Feed

open Subtle.Firestore Subtle.Lib Subtle.Auth

/-! ### Encoding a comment -/

/-- A `UUID`, as its `uuidString`. -/
structure UUID where
  uuidString : String
  valid : uuid uuidString = some uuidString

/-- `comment.asDictionary()` -/
def CommentModel.asDictionary (comment : CommentModel) : Fields :=
  [("id", .string comment.id), ("postId", .string comment.postId),
    ("comment", .string comment.comment), ("username", .string comment.username),
    ("date", .number comment.date), ("ownerId", .string comment.ownerId)]

/-- **A comment is read back as it was written.** -/
theorem CommentModel.fromDictionary_asDictionary {comment : CommentModel} {u : UUID}
    (h : comment.id = u.uuidString) :
    CommentModel.fromDictionary comment.asDictionary = .returns comment := by
  have hid : uuid comment.id = some comment.id := by
    rw [h]
    exact u.valid
  have hdecoded : (uuid comment.id).bind (fun id => some { comment with id }) = some comment := by
    rw [hid]
    rfl
  show Option.elim ((uuid comment.id).bind fun id => some { comment with id }) _ _ = _
  rw [hdecoded]
  rfl

/-- A listener decodes the comment that was written. -/
theorem commentOf_asDictionary {comment : CommentModel} {u : UUID}
    (h : comment.id = u.uuidString) : commentOf comment.asDictionary = some comment := by
  rw [commentOf, CommentModel.fromDictionary_asDictionary h]

/-! ### The service -/

/-- `CommentInputVM`, with the post of its `CommentService`. -/
structure CommentInputVM where
  post : Option Post

/-- `self.post?.id` -/
def CommentInputVM.postId (vm : CommentInputVM) : Option String := vm.post.bind Post.id

/-- `init(post:)`, with the id for which it calls `handleInput`. -/
def CommentInputVM.init (post : Option Post) : CommentInputVM × Option String :=
  if post ≠ none then (⟨post⟩, none)
  else (⟨none⟩, post.bind Post.id)

/-- There is never a post to load. -/
theorem CommentInputVM.init_eq (post : Option Post) : init post = (⟨post⟩, none) := by
  cases post <;> rfl

/-- What `addComment` holds on to while it waits for the name. -/
structure CommentSend where
  comment : String
  currUserId : String
  postId : Option String
  deriving DecidableEq

/-- A stored comment: the post and the new id in its path, and its fields. -/
structure CommentDocument where
  postId : String
  autoId : Nat
  fields : Fields

/-- The stored comments and profiles, and the ids given to documents so far. -/
structure CommentStore where
  users : String → Option Document
  documents : List CommentDocument
  autoIds : Nat

inductive CommentCall where
  /-- Some client writes or deletes a profile. -/
  | write (uid : String) (document : Option Document)
  /-- The button next to the text is tapped. -/
  | sendComment (currentUser : Option String) (vm : CommentInputVM) (input : String)

/-- An outstanding request, or an answer that waits for its handler. -/
inductive CommentRequest where
  | name (send : CommentSend) (lookup : Lookup)
  | addDocument (document : CommentDocument)

/-- How a request goes; a comment takes its date and its id from the device. -/
inductive CommentReply where
  | error
  | success (date : Int) (id : UUID)

namespace CommentStore

def addComment (s : CommentStore) (currentUser postId : Option String) (comment : String) :
    CommentStore × List CommentRequest :=
  match currentUser with
  | none => (s, [])
  | some currUserId => (s, [.name ⟨comment, currUserId, postId⟩ (.getDocument currUserId)])

def call (s : CommentStore) : CommentCall → Option (CommentStore × List CommentRequest)
  | .write uid document => some ({ s with users := Function.update s.users uid document }, [])
  | .sendComment currentUser vm input =>
      some (if input ≠ "" then s.addComment currentUser vm.postId input else (s, []))

def postComment (s : CommentStore) (comment username ownerId postId : String) (date : Int)
    (id : UUID) : CommentStore × List CommentRequest :=
  let comment : CommentModel := ⟨id.uuidString, postId, comment, username, date, ownerId⟩
  ({ s with autoIds := s.autoIds + 1 },
    [.addDocument ⟨postId, s.autoIds, comment.asDictionary⟩])

/-- The closure that `addComment` hands to `getNameFromId`. -/
def handleName (s : CommentStore) (send : CommentSend) (fullName : String) (date : Int)
    (id : UUID) : CommentStore × List CommentRequest :=
  match send.postId with
  | none => (s, [])
  | some postId => s.postComment send.comment fullName send.currUserId postId date id

def answer (s : CommentStore) : CommentRequest → CommentReply →
    Option (CommentStore × List CommentRequest)
  | .name send (.getDocument id), .success _ _ => some (s, [.name send (.response id (s.users id))])
  | .name send (.response id document), .success date uuid =>
      some <| match nameFromDocument id document with
        | none => (s, [])
        | some fullName => s.handleName send fullName date uuid
  | .addDocument document, .success _ _ =>
      some ({ s with documents := s.documents ++ [document] }, [])
  | _, .error => some (s, [])

end CommentStore

def commentSending : Service CommentStore CommentCall CommentRequest CommentReply :=
  ⟨CommentStore.call, CommentStore.answer⟩

variable {s s' : CommentStore} {new : List CommentRequest} {op : CommentRequest}

/-- The request succeeds: the profile has a name, and there is a post to comment on. -/
def Succeeds : CommentRequest → CommentReply → Prop
  | .name send (.response id profile), .success _ _ =>
      nameFromDocument id profile ≠ none ∧ send.postId ≠ none
  | .name _ (.getDocument _), .success _ _ | .addDocument _, .success _ _ => True
  | .name _ _, .error | .addDocument _, .error => False

instance : ∀ (op : CommentRequest) (r : CommentReply), Decidable (Succeeds op r)
  | .name send (.response id profile), .success _ _ =>
      inferInstanceAs (Decidable (nameFromDocument id profile ≠ none ∧ send.postId ≠ none))
  | .name _ (.getDocument _), .success _ _ | .addDocument _, .success _ _ => isTrue trivial
  | .name _ (.getDocument _), .error | .name _ (.response _ _), .error
  | .addDocument _, .error => isFalse id

/-- **What an answer can do**: nothing, unless the request succeeds. -/
theorem commentAnswer_cases {r : CommentReply}
    (h : commentSending.answer s op r = some (s', new)) :
    (¬ Succeeds op r ∧ s' = s ∧ new = []) ∨
    (∃ send id, op = .name send (.getDocument id) ∧ s' = s ∧
      new = [.name send (.response id (s.users id))]) ∨
    (∃ send id document fullName postId date uuid, op = .name send (.response id document) ∧
      nameFromDocument id document = some fullName ∧ send.postId = some postId ∧
      (s', new) = s.postComment send.comment fullName send.currUserId postId date uuid) ∨
    ∃ document, op = .addDocument document ∧
      s' = { s with documents := s.documents ++ [document] } ∧ new = [] := by
  cases op with
  | name send lookup =>
    cases r with
    | error =>
      cases lookup <;> obtain ⟨rfl, rfl⟩ := Prod.mk.inj (Option.some.inj h) <;>
        exact Or.inl ⟨id, rfl, rfl⟩
    | success date uuid =>
      cases lookup with
      | getDocument id =>
        obtain ⟨rfl, rfl⟩ := Prod.mk.inj (Option.some.inj h)
        exact Or.inr (Or.inl ⟨send, id, rfl, rfl, rfl⟩)
      | response id document =>
        replace h := (Option.some.inj h).symm
        split at h
        next hnone =>
          obtain ⟨rfl, rfl⟩ := Prod.mk.inj h
          exact Or.inl ⟨fun hsucceeds => hsucceeds.1 hnone, rfl, rfl⟩
        next fullName hname =>
          unfold CommentStore.handleName at h
          split at h
          next hnone =>
            obtain ⟨rfl, rfl⟩ := Prod.mk.inj h
            exact Or.inl ⟨fun hsucceeds => hsucceeds.2 hnone, rfl, rfl⟩
          next postId hpost =>
            exact Or.inr (Or.inr (Or.inl
              ⟨send, id, document, fullName, postId, date, uuid, rfl, hname, hpost, h⟩))
  | addDocument document =>
    cases r with
    | error =>
      obtain ⟨rfl, rfl⟩ := Prod.mk.inj (Option.some.inj h)
      exact Or.inl ⟨id, rfl, rfl⟩
    | success date uuid =>
      obtain ⟨rfl, rfl⟩ := Prod.mk.inj (Option.some.inj h)
      exact Or.inr (Or.inr (Or.inr ⟨document, rfl, rfl, rfl⟩))

/-! ### What becomes of a send -/

/-- The send that a comment comes from. -/
def CommentModel.send (comment : CommentModel) : CommentSend :=
  ⟨comment.comment, comment.ownerId, some comment.postId⟩

/-- The comment in a document, where it decodes. -/
def CommentDocument.stored (document : CommentDocument) : Option CommentModel :=
  commentOf document.fields

/-- The send that a document comes from. -/
def CommentDocument.sends (document : CommentDocument) : Multiset CommentSend :=
  ((document.stored.map CommentModel.send).toList : List CommentSend)

theorem sends_of_stored {document : CommentDocument} {comment : CommentModel}
    (h : document.stored = some comment) : document.sends = {comment.send} := by
  rw [CommentDocument.sends, h]
  rfl

/-- The sends of a call: there is one if there is a text, and a user to sign it. -/
def CommentCall.sends : CommentCall → Multiset CommentSend
  | .sendComment (some currUserId) vm input =>
      if input ≠ "" then {⟨input, currUserId, vm.postId⟩} else 0
  | _ => 0

def CommentRequest.sends : CommentRequest → Multiset CommentSend
  | .name send _ => {send}
  | .addDocument document => document.sends

/-- The sends that the stored comments come from. -/
def CommentStore.sends (s : CommentStore) : Multiset CommentSend :=
  (s.documents.map CommentDocument.sends).sum

theorem CommentStore.sends_concat (s : CommentStore) (document : CommentDocument) :
    CommentStore.sends { s with documents := s.documents ++ [document] } =
      s.sends + document.sends := by
  simp [CommentStore.sends]

theorem sends_asDictionary (comment : CommentModel) (u : UUID) (h : comment.id = u.uuidString)
    (postId : String) (autoId : Nat) :
    (CommentDocument.mk postId autoId comment.asDictionary).sends = {comment.send} :=
  sends_of_stored (commentOf_asDictionary h)

theorem sends_call {x : CommentCall} (h : commentSending.call s x = some (s', new)) :
    s'.sends + (new.map CommentRequest.sends).sum = s.sends + x.sends := by
  cases x with
  | write uid document =>
    obtain ⟨rfl, rfl⟩ := Prod.mk.inj (Option.some.inj h)
    rfl
  | sendComment currentUser vm input =>
    replace h := (Option.some.inj h).symm
    split_ifs at h with hinput
    · cases currentUser with
      | none =>
        obtain ⟨rfl, rfl⟩ := Prod.mk.inj h
        rfl
      | some currUserId =>
        obtain ⟨rfl, rfl⟩ := Prod.mk.inj h
        rw [CommentCall.sends, if_pos hinput]
        rfl
    · obtain ⟨rfl, rfl⟩ := Prod.mk.inj h
      cases currentUser with
      | none => rfl
      | some currUserId =>
        rw [CommentCall.sends, if_neg hinput]
        rfl

/-- **A request that succeeds loses no send**, and one that fails makes none. -/
theorem sends_answer {r : CommentReply} (h : commentSending.answer s op r = some (s', new)) :
    (¬ Succeeds op r ∧ s' = s ∧ new = []) ∨
      s'.sends + (new.map CommentRequest.sends).sum = s.sends + op.sends := by
  rcases commentAnswer_cases h with hfails | ⟨send, id, rfl, rfl, rfl⟩ |
    ⟨send, id, document, fullName, postId, date, uuid, rfl, -, hpost, heq⟩ |
    ⟨document, rfl, rfl, rfl⟩
  · exact Or.inl hfails
  · exact Or.inr rfl
  · obtain ⟨rfl, rfl⟩ := Prod.mk.inj heq
    refine Or.inr (congrArg (s.sends + ·) ?_)
    have hsends := sends_asDictionary
      ⟨uuid.uuidString, postId, send.comment, fullName, date, send.currUserId⟩ uuid rfl
      postId s.autoIds
    rw [List.map_singleton, List.sum_singleton]
    refine hsends.trans ?_
    show {CommentSend.mk send.comment send.currUserId (some postId)} = {send}
    rw [← hpost]
  · refine Or.inr ?_
    rw [CommentStore.sends_concat]
    exact add_zero _

/-- The ledger of the sends. -/
def sendLedger : Ledger commentSending CommentSend where
  brings := CommentCall.sends
  carries := CommentRequest.sends
  keeps := CommentStore.sends
  call _ _ _ _ h := sends_call h
  answer s op r s' new h := by
    rcases sends_answer h with ⟨-, rfl, rfl⟩ | heq
    · exact add_le_add_right (Multiset.zero_le _) _
    · exact heq.le

theorem lossless_of_succeeds {r : CommentReply} (h : Succeeds op r) :
    sendLedger.Lossless s op r :=
  fun _ _ hx => (sends_answer hx).resolve_left fun hfails => hfails.1 h

/-! ### Where comments come from -/

def CommentRequest.document : CommentRequest → Option CommentDocument
  | .name _ _ => none
  | .addDocument document => some document

/-- The documents that are stored or on their way. -/
def issuedDocuments (s : CommentStore) (ops : List CommentRequest) : Multiset CommentDocument :=
  (s.documents : Multiset CommentDocument) + (ops.filterMap CommentRequest.document : List _)

variable {pre post : List CommentRequest}

theorem issuedDocuments_append (s : CommentStore) (ops new : List CommentRequest) :
    issuedDocuments s (ops ++ new) =
      issuedDocuments s ops + (new.filterMap CommentRequest.document : List _) := by
  rw [issuedDocuments, List.filterMap_append, ← Multiset.coe_add, ← add_assoc, issuedDocuments]

theorem issuedDocuments_middle (s : CommentStore) (pre post : List CommentRequest)
    (op : CommentRequest) : issuedDocuments s (pre ++ op :: post) =
      issuedDocuments s (pre ++ post) + (op.document.toList : List _) := by
  have hperm : (pre ++ op :: post).Perm (pre ++ post ++ [op]) :=
    List.perm_middle.trans (List.perm_append_singleton op _).symm
  have hdocuments := Multiset.coe_eq_coe.mpr (hperm.filterMap CommentRequest.document)
  rw [issuedDocuments, hdocuments, List.filterMap_append, ← Multiset.coe_add, ← add_assoc,
    issuedDocuments]
  cases hop : op.document <;> simp [hop]

/-- **What an answer does to the documents**: it issues none, or one with a new id. -/
theorem issuedDocuments_answer {r : CommentReply}
    (h : commentSending.answer s op r = some (s', new)) (pre post : List CommentRequest) :
    (issuedDocuments s' (pre ++ post ++ new) ≤ issuedDocuments s (pre ++ op :: post) ∧
      s'.autoIds = s.autoIds) ∨
    ∃ send id document fullName postId date, ∃ uuid : UUID,
      op = .name send (.response id document) ∧ nameFromDocument id document = some fullName ∧
      send.postId = some postId ∧ s'.autoIds = s.autoIds + 1 ∧
      issuedDocuments s' (pre ++ post ++ new) =
        ⟨postId, s.autoIds, CommentModel.asDictionary
          ⟨uuid.uuidString, postId, send.comment, fullName, date, send.currUserId⟩⟩ ::ₘ
            issuedDocuments s (pre ++ op :: post) := by
  rw [issuedDocuments_middle, issuedDocuments_append]
  rcases commentAnswer_cases h with ⟨-, rfl, rfl⟩ | ⟨send, id, rfl, rfl, rfl⟩ |
    ⟨send, id, document, fullName, postId, date, uuid, rfl, hname, hpost, heq⟩ |
    ⟨document, rfl, rfl, rfl⟩
  · left
    exact ⟨add_le_add_right (Multiset.zero_le _) _, rfl⟩
  · left
    exact ⟨le_rfl, rfl⟩
  · right
    obtain ⟨rfl, rfl⟩ := Prod.mk.inj heq
    refine ⟨send, id, document, fullName, postId, date, uuid, rfl, hname, hpost, rfl, ?_⟩
    show issuedDocuments s (pre ++ post) + {_} = _ ::ₘ (issuedDocuments s (pre ++ post) + 0)
    rw [add_zero, ← Multiset.singleton_add]
    exact add_comm _ _
  · left
    refine ⟨le_of_eq ?_, rfl⟩
    show ((s.documents ++ [document] : List _) : Multiset CommentDocument) + _ + 0 =
      (s.documents : Multiset CommentDocument) + _ + {document}
    rw [add_zero, ← Multiset.coe_add]
    exact add_right_comm _ _ _

/-- Every id given to a document is below the next, and none has been given twice. -/
structure FreshIds (s : CommentStore) (ops : List CommentRequest) : Prop where
  nodup : ((issuedDocuments s ops).map CommentDocument.autoId).Nodup
  lt : ∀ d ∈ issuedDocuments s ops, d.autoId < s.autoIds

theorem freshIds_answer {r : CommentReply} (h : FreshIds s (pre ++ op :: post))
    (hx : commentSending.answer s op r = some (s', new)) : FreshIds s' (pre ++ post ++ new) := by
  rcases issuedDocuments_answer hx pre post with ⟨hle, hids⟩ |
    ⟨send, id, document, fullName, postId, date, uuid, -, -, -, hids, heq⟩
  · refine ⟨Multiset.nodup_of_le (Multiset.map_le_map hle) h.nodup, fun d hd => ?_⟩
    rw [hids]
    exact h.lt d (Multiset.mem_of_le hle hd)
  · constructor
    · rw [heq, Multiset.map_cons, Multiset.nodup_cons]
      refine ⟨fun hin => ?_, h.nodup⟩
      obtain ⟨d, hd, hid⟩ := Multiset.mem_map.mp hin
      exact absurd hid (h.lt d hd).ne
    · intro d hd
      rw [heq] at hd
      rw [hids]
      rcases Multiset.mem_cons.mp hd with rfl | hd
      · exact Nat.lt_succ_self _
      · exact Nat.lt_succ_of_lt (h.lt d hd)

/-- The profile of `id` is this document. -/
def StoredProfile (id : String) (profile : Option Document)
    (c : Config CommentStore CommentRequest) : Prop := c.core.users id = profile

variable {c₀ c c' : Config CommentStore CommentRequest}
  {es : List (Event CommentCall CommentReply)} {e : Event CommentCall CommentReply}

/-- The profile of `id` had this name at some moment of the run. -/
def Named (c₀ : Config CommentStore CommentRequest) (es : List (Event CommentCall CommentReply))
    (id fullName : String) : Prop :=
  ∃ profile, nameFromDocument id profile = some fullName ∧
    commentSending.machine.Sometime (StoredProfile id profile) c₀ es

theorem Named.append {id fullName : String} (h : Named c₀ es id fullName)
    (fs : List (Event CommentCall CommentReply)) : Named c₀ (es ++ fs) id fullName := by
  obtain ⟨profile, hname, hstored⟩ := h
  exact ⟨profile, hname, hstored.append fs⟩

/-- The document holds a comment on its post, with a name that its owner had. -/
def Signed (c₀ : Config CommentStore CommentRequest)
    (es : List (Event CommentCall CommentReply)) (document : CommentDocument) : Prop :=
  ∃ comment, document.stored = some comment ∧ comment.postId = document.postId ∧
    Named c₀ es comment.ownerId comment.username

/-- A request for the name of the sender, or a comment with that name. -/
def SignedRequest (c₀ : Config CommentStore CommentRequest)
    (es : List (Event CommentCall CommentReply)) : CommentRequest → Prop
  | .name send (.getDocument id) => id = send.currUserId
  | .name send (.response id profile) => id = send.currUserId ∧
      commentSending.machine.Sometime (StoredProfile id profile) c₀ es
  | .addDocument document => Signed c₀ es document

theorem Signed.append {document : CommentDocument} (h : Signed c₀ es document)
    (fs : List (Event CommentCall CommentReply)) : Signed c₀ (es ++ fs) document := by
  obtain ⟨comment, hcomment, hpost, hnamed⟩ := h
  exact ⟨comment, hcomment, hpost, hnamed.append fs⟩

theorem SignedRequest.append (h : SignedRequest c₀ es op)
    (fs : List (Event CommentCall CommentReply)) : SignedRequest c₀ (es ++ fs) op := by
  cases op with
  | name send lookup =>
    cases lookup with
    | getDocument id => exact h
    | response id profile => exact ⟨h.1, h.2.append fs⟩
  | addDocument document => exact Signed.append h fs

/-- What is on its way, and what has come of it, after the events of a run. -/
structure AllSigned (c₀ : Config CommentStore CommentRequest)
    (es : List (Event CommentCall CommentReply)) (c : Config CommentStore CommentRequest) :
    Prop where
  run : commentSending.machine.run c₀ es = some c
  requests : ∀ op ∈ c.pending, SignedRequest c₀ es op
  documents : ∀ document ∈ c.core.documents, Signed c₀ es document

/-- A call issues no document, and a lookup for the user who is signed in. -/
theorem commentCall_cases {x : CommentCall} (h : commentSending.call s x = some (s', new)) :
    s'.documents = s.documents ∧ s'.autoIds = s.autoIds ∧
      (new = [] ∨ ∃ send, new = [.name send (.getDocument send.currUserId)]) := by
  cases x with
  | write uid document =>
    obtain ⟨rfl, rfl⟩ := Prod.mk.inj (Option.some.inj h)
    exact ⟨rfl, rfl, Or.inl rfl⟩
  | sendComment currentUser vm input =>
    replace h := (Option.some.inj h).symm
    split_ifs at h
    · cases currentUser with
      | none =>
        obtain ⟨rfl, rfl⟩ := Prod.mk.inj h
        exact ⟨rfl, rfl, Or.inl rfl⟩
      | some currUserId =>
        obtain ⟨rfl, rfl⟩ := Prod.mk.inj h
        exact ⟨rfl, rfl, Or.inr ⟨⟨input, currUserId, vm.postId⟩, rfl⟩⟩
    · obtain ⟨rfl, rfl⟩ := Prod.mk.inj h
      exact ⟨rfl, rfl, Or.inl rfl⟩

/-- What an answer issues and stores is signed as what it answers. -/
theorem signed_answer {r : CommentReply} (h : AllSigned c₀ es ⟨s, pre ++ op :: post⟩)
    (hx : commentSending.answer s op r = some (s', new)) :
    (∀ op' ∈ new, SignedRequest c₀ es op') ∧ ∀ document ∈ s'.documents, Signed c₀ es document := by
  have hop := h.requests op (Service.mem_pending_iff.mpr (Or.inl rfl))
  rcases commentAnswer_cases hx with ⟨-, rfl, rfl⟩ | ⟨send, id, rfl, rfl, rfl⟩ |
    ⟨send, id, document, fullName, postId, date, uuid, rfl, hname, hpost, heq⟩ |
    ⟨document, rfl, rfl, rfl⟩
  · exact ⟨List.forall_mem_nil _, h.documents⟩
  · refine ⟨fun op' hop' => ?_, h.documents⟩
    obtain rfl := List.mem_singleton.mp hop'
    have hnow : StoredProfile id (s'.users id) ⟨s', pre ++ .name send (.getDocument id) :: post⟩ :=
      rfl
    exact ⟨hop, Machine.sometime_of_run h.run hnow⟩
  · obtain ⟨rfl, rfl⟩ := Prod.mk.inj heq
    obtain ⟨rfl, hstored⟩ := hop
    refine ⟨fun op' hop' => ?_, h.documents⟩
    obtain rfl := List.mem_singleton.mp hop'
    exact ⟨_, commentOf_asDictionary (u := uuid) rfl, rfl, document, hname, hstored⟩
  · refine ⟨List.forall_mem_nil _, fun document' hin => ?_⟩
    rcases List.mem_append.mp hin with hin | hin
    · exact h.documents document' hin
    · obtain rfl := List.mem_singleton.mp hin
      exact hop

theorem allSigned_step (h : AllSigned c₀ es c) (hstep : commentSending.machine.step c e = some c') :
    AllSigned c₀ (es ++ [e]) c' := by
  have hrun := Machine.run_concat h.run hstep
  obtain ⟨s, ops⟩ := c
  rcases Service.step_cases hstep with ⟨x, s', new, rfl, hx, rfl⟩ |
    ⟨pre, op, post, r, s', new, rfl, hp, hx, rfl⟩
  · obtain ⟨hdocuments, -, hnew⟩ := commentCall_cases hx
    refine ⟨hrun, fun op hop => ?_, fun document hin => ?_⟩
    · rcases List.mem_append.mp hop with hop | hop
      · exact (h.requests op hop).append _
      · rcases hnew with rfl | ⟨send, rfl⟩
        · exact absurd hop List.not_mem_nil
        · obtain rfl := List.mem_singleton.mp hop
          rfl
    · exact (h.documents document (hdocuments ▸ hin)).append _
  · obtain rfl : ops = pre ++ op :: post := hp
    obtain ⟨hnew, hdocuments⟩ := signed_answer h hx
    refine ⟨hrun, fun op' hop' => ?_, fun document hin => (hdocuments document hin).append _⟩
    rcases List.mem_append.mp hop' with hold | hop'
    · exact (h.requests op' (Service.mem_pending_iff.mpr (Or.inr hold))).append _
    · exact (hnew op' hop').append _

/-- Nothing has been sent. -/
def CommentStore.start (users : String → Option Document) : CommentStore := ⟨users, [], 0⟩

variable {users : String → Option Document}

theorem allSigned_run (hrun : commentSending.machine.run ⟨.start users, []⟩ es = some c) :
    AllSigned ⟨.start users, []⟩ es c := by
  refine Machine.run_trace_inv (I := fun c es => AllSigned ⟨.start users, []⟩ es c) ?_ (h := [])
    ⟨rfl, List.forall_mem_nil _, List.forall_mem_nil _⟩ hrun
  intro c es e c' h hstep
  exact allSigned_step h hstep

theorem freshIds_run (hrun : commentSending.machine.run ⟨.start users, []⟩ es = some c) :
    FreshIds c.core c.pending := by
  refine Service.run_inv_of_step (I := FreshIds) (c := ⟨.start users, []⟩) ?_ ?_
    ⟨Multiset.nodup_zero, ?_⟩ hrun
  · intro s ops x s' new h hx
    obtain ⟨hdocuments, hids, hnew⟩ := commentCall_cases hx
    have hissued : issuedDocuments s' (ops ++ new) = issuedDocuments s ops := by
      have hnone : new.filterMap CommentRequest.document = [] := by
        rcases hnew with rfl | ⟨send, rfl⟩ <;> rfl
      rw [issuedDocuments_append, hnone, issuedDocuments, hdocuments, issuedDocuments]
      exact add_zero _
    exact ⟨hissued ▸ h.nodup, hissued ▸ hids ▸ h.lt⟩
  · intro s pre op post r s' new h hx
    exact freshIds_answer h hx
  · intro d hd
    exact absurd hd (Multiset.notMem_zero d)

/-- **Every document is the comment of one send**: no two have one id, there are no more of
them than sends, and each is a comment on its post with a name that the profile of its owner
had at some moment of the run. -/
theorem comments_stored (hrun : commentSending.machine.run ⟨.start users, []⟩ es = some c) :
    (c.core.documents.map CommentDocument.autoId).Nodup ∧
    c.core.sends ≤ sendLedger.brought es ∧
    ∀ document ∈ c.core.documents, ∃ comment, document.stored = some comment ∧
      document.sends = {comment.send} ∧ comment.postId = document.postId ∧
      ∃ profile, nameFromDocument comment.ownerId profile = some comment.username ∧
        commentSending.machine.Sometime (StoredProfile comment.ownerId profile)
          ⟨.start users, []⟩ es := by
  refine ⟨?_, ?_, fun document hin => ?_⟩
  · have hnodup := (freshIds_run hrun).nodup
    rw [issuedDocuments, Multiset.map_add] at hnodup
    exact Multiset.coe_nodup.mp (Multiset.nodup_of_le (Multiset.le_add_right _ _) hnodup)
  · have hle := Ledger.run_le (L := sendLedger) hrun
    have hstart : sendLedger.holds ⟨.start users, []⟩ = 0 := rfl
    rw [hstart, zero_add] at hle
    exact (Multiset.le_add_right _ _).trans hle
  · obtain ⟨comment, hcomment, hpost, hnamed⟩ := (allSigned_run hrun).documents document hin
    exact ⟨comment, hcomment, sends_of_stored hcomment, hpost, hnamed⟩

/-! ### What a view shows at rest -/

section

variable (name : Nat → String)

/-- The documents of the post, as a listener is given them. -/
def ShowsPost (s : CommentStore) (postId : String) (result : CommentResult) : Prop :=
  ∀ d, d ∈ result.documents ↔ ∃ document ∈ s.documents, document.postId = postId ∧
    d = (name document.autoId, document.fields)

variable {name} {postId : String} {result : CommentResult}

/-- The documents of the post, once each. -/
theorem perm_of_showsPost (hname : Function.Injective name)
    (hids : (s.documents.map CommentDocument.autoId).Nodup)
    (hshows : ShowsPost name s postId result) :
    result.documents.Perm ((s.documents.filter fun d => d.postId = postId).map fun d =>
      (name d.autoId, d.fields)) := by
  refine (List.perm_ext_iff_of_nodup (List.Nodup.of_map _ result.ids_nodup) ?_).mpr fun d => ?_
  · refine List.Nodup.of_map Prod.fst ?_
    rw [List.map_map]
    have hnames := hids.map hname
    rw [List.map_map] at hnames
    exact hnames.sublist (List.filter_sublist.map _)
  · rw [hshows d, List.mem_map]
    constructor
    · rintro ⟨document, hin, hpost, rfl⟩
      exact ⟨document, List.mem_filter.mpr ⟨hin, decide_eq_true hpost⟩, rfl⟩
    · rintro ⟨document, hin, rfl⟩
      obtain ⟨hin, hpost⟩ := List.mem_filter.mp hin
      exact ⟨document, hin, of_decide_eq_true hpost, rfl⟩

/-- The sends of the comments on one post. -/
theorem sends_of_post {documents : List CommentDocument}
    (hsigned : ∀ d ∈ documents, ∃ comment, d.stored = some comment ∧
      comment.postId = d.postId) :
    ((((documents.filter fun d => d.postId = postId).filterMap CommentDocument.stored).map
      CommentModel.send : List CommentSend) : Multiset CommentSend) =
      ((documents.map CommentDocument.sends).sum).filter fun send => send.postId = some postId := by
  induction documents with
  | nil => rfl
  | cons d documents ih =>
    obtain ⟨comment, hcomment, hpost⟩ := hsigned d List.mem_cons_self
    have hrest := ih fun d hd => hsigned d (List.mem_cons_of_mem _ hd)
    rw [List.map_cons, List.sum_cons, sends_of_stored hcomment, Multiset.filter_add, ← hrest,
      Multiset.filter_singleton]
    by_cases hsame : d.postId = postId
    · have hsend : comment.send.postId = some postId := congrArg some (hpost.trans hsame)
      rw [List.filter_cons_of_pos (by simpa using hsame), List.filterMap_cons_some hcomment,
        if_pos hsend]
      rfl
    · have hother : ¬ comment.send.postId = some postId := fun h =>
        hsame (hpost.symm.trans (Option.some.inj h))
      rw [List.filter_cons_of_neg (by simpa using hsame), if_neg hother]
      exact (zero_add _).symm

/-- The comments that a result shows are those of the documents of the post. -/
theorem comments_of_showsPost (hname : Function.Injective name)
    (hids : (s.documents.map CommentDocument.autoId).Nodup)
    (hshows : ShowsPost name s postId result) :
    result.comments.Perm
      ((s.documents.filter fun d => d.postId = postId).filterMap CommentDocument.stored) := by
  have hperm := (perm_of_showsPost hname hids hshows).filterMap fun d => commentOf d.2
  have hcomments : result.comments = result.documents.filterMap fun d => commentOf d.2 := by
    rw [CommentResult.comments, decoded, List.map_filterMap]
    apply List.filterMap_congr
    intro d _
    simp [decodeComment]
  rw [hcomments]
  rwa [List.filterMap_map] at hperm

/-- No stored comment of the post raises. -/
theorem readable_of_showsPost
    (hstored : ∀ document ∈ s.documents, ∃ comment, document.stored = some comment)
    (hshows : ShowsPost name s postId result) :
    ∀ d ∈ result.documents, CommentModel.fromDictionary d.2 ≠ .raises := by
  intro d hd hraises
  obtain ⟨document, hin, -, rfl⟩ := (hshows d).mp hd
  obtain ⟨comment, hcomment⟩ := hstored document hin
  exact Decoding.noConfusion ((commentOf_eq_some hcomment).symm.trans hraises)

/-- **A view can be opened at rest and shows one comment for every send to its post**, the
earliest first and each with a name that its owner had, if all requests succeed. -/
theorem comments_arrive (hname : Function.Injective name)
    (hrun : commentSending.machine.run ⟨.start users, []⟩ es = some c)
    (hsucceeds : commentSending.machine.Along (Service.OnAnswer fun _ => Succeeds)
      ⟨.start users, []⟩ es)
    (hquiet : c.pending = []) (hshows : ShowsPost name c.core postId result)
    (view : CommentService) :
    ∃ shown, commentView.run view [.onDisappear, .onAppear (some postId),
      .snapshot (some (documentChanges [] result.documents))] = some shown ∧
    ((shown.comments.map CommentModel.send : List CommentSend) : Multiset CommentSend) =
      (sendLedger.brought es).filter (fun send => send.postId = some postId) ∧
    shown.comments.Pairwise (fun x y => x.date ≤ y.date) ∧
    ∀ comment ∈ shown.comments, Named ⟨.start users, []⟩ es comment.ownerId comment.username := by
  obtain ⟨hids, -, hstored⟩ := comments_stored hrun
  have hperm := comments_of_showsPost hname hids hshows
  obtain ⟨shown, hview⟩ := @exists_reopened view postId result <|
    readable_of_showsPost (fun d hd => (hstored d hd).imp fun _ h => h.1) hshows
  refine ⟨shown, hview, ?_⟩
  rw [comments_reopened hview]
  refine ⟨?_, ?_, fun comment hin => ?_⟩
  · have hlossless : commentSending.machine.Along (Service.OnAnswer sendLedger.Lossless)
        ⟨.start users, []⟩ es := by
      refine Machine.along_of_inv (I := fun _ => True) (fun _ _ _ _ _ _ => trivial) ?_ trivial
        hsucceeds
      intro c e _ h
      cases e with
      | call x => exact trivial
      | answer i r => exact fun op hop => lossless_of_succeeds (h op hop)
    have hsends := Ledger.run_eq hrun hlossless
    have hstart : sendLedger.holds ⟨.start users, []⟩ = 0 := rfl
    have hall : c.core.sends = sendLedger.brought es := by
      rw [hstart, zero_add, Ledger.holds, hquiet] at hsends
      exact (add_zero _).symm.trans hsends
    rw [Multiset.coe_eq_coe.mpr (hperm.map _), ← hall]
    apply sends_of_post
    intro d hd
    obtain ⟨comment, hcomment, -, hpost, -⟩ := hstored d hd
    exact ⟨comment, hcomment, hpost⟩
  · rw [CommentResult.comments]
    refine List.pairwise_map.mpr (result.comments_ordered.imp ?_)
    intro x y h
    rcases h with hlt | ⟨heq, -⟩
    · exact hlt.le
    · exact heq.le
  · obtain ⟨d, hd, hcomment⟩ := List.mem_filterMap.mp (hperm.mem_iff.mp hin)
    obtain ⟨comment', hcomment', -, -, hnamed⟩ := hstored d (List.mem_filter.mp hd).1
    obtain rfl := Option.some.inj (hcomment.symm.trans hcomment')
    exact hnamed

end

/-! ### A comment by Bob -/

def bobsUUID : UUID where
  uuidString := "0B6F1D2E-6A3C-4F6E-9A57-3D1F0C9B2A11"
  valid := by decide +kernel

def aPost : Post where
  id := some "post"
  posterId := "ann"
  name := ""
  university := ""
  location := ""
  birthday := 0
  text := ""
  likes := []
  tags := []
  taggedUserIds := []
  pictures := []
  childCommentIds := []
  creationDate := 0

/-- Bob sends a comment, taps once more without a text, and is signed out. -/
def bobComments : List (Event CommentCall CommentReply) :=
  [.call (.sendComment (some "bob") ⟨some aPost⟩ "hi"),
    .call (.sendComment (some "bob") ⟨some aPost⟩ ""),
    .call (.sendComment none ⟨some aPost⟩ "anyone?"), .answer 0 (.success 1 bobsUUID),
    .answer 0 (.success 2 bobsUUID), .answer 0 (.success 3 bobsUUID)]

def bobsName (uid : String) : Option Document :=
  if uid = "bob" then some (User.encode ⟨none, "Bob", "Ray", "bob@duke.edu", "Duke University"⟩)
  else none

theorem comments_stored_example : ∃ c,
    commentSending.machine.run ⟨.start bobsName, []⟩ bobComments = some c ∧
    c.core.documents.length = 1 ∧ c.core.sends ≤ sendLedger.brought bobComments := by
  have hrun : ∃ c, commentSending.machine.run ⟨.start bobsName, []⟩ bobComments = some c ∧
      c.core.documents.length = 1 := ⟨_, rfl, rfl⟩
  obtain ⟨c, hrun, hlength⟩ := hrun
  exact ⟨c, hrun, hlength, (comments_stored hrun).2.1⟩

/-- Ids that tell all documents apart. -/
def commentName (autoId : Nat) : String := String.ofList (List.replicate autoId 'c')

theorem commentName_injective : Function.Injective commentName := by
  intro n n' h
  simpa using congrArg List.length (String.ofList_inj.mp h)

def bobsComment : CommentModel := ⟨bobsUUID.uuidString, "post", "hi", "Bob Ray", 2, "bob"⟩

def bobsResult : CommentResult where
  documents := [(commentName 0, bobsComment.asDictionary)]
  ids_nodup := List.nodup_singleton _
  ordered := List.pairwise_singleton _ _

theorem comments_arrive_example : ∃ c shown,
    commentSending.machine.run ⟨.start bobsName, []⟩ bobComments = some c ∧
    commentView.run CommentService.init [.onDisappear, .onAppear (some "post"),
      .snapshot (some (documentChanges [] bobsResult.documents))] = some shown ∧
    ((shown.comments.map CommentModel.send : List CommentSend) : Multiset CommentSend) =
      (sendLedger.brought bobComments).filter fun send => send.postId = some "post" := by
  have hrun : ∃ c, commentSending.machine.run ⟨.start bobsName, []⟩ bobComments = some c ∧
      c.pending = [] ∧ c.core.documents = [⟨"post", 0, bobsComment.asDictionary⟩] :=
    ⟨_, rfl, rfl, rfl⟩
  obtain ⟨c, hrun, hquiet, hdocuments⟩ := hrun
  have hshows : ShowsPost commentName c.core "post" bobsResult := by
    intro d
    rw [hdocuments]
    simp [bobsResult]
  obtain ⟨shown, hview, hsends, -⟩ := comments_arrive commentName_injective hrun
    (by decide +kernel) hquiet hshows CommentService.init
  exact ⟨c, shown, hrun, hview, hsends⟩

end Subtle.Feed
