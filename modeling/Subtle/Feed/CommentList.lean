import Subtle.Chat.ChatLog
import Subtle.Feed.Comments

/-!
# Lists kept by appending

`CommentService` listens to the comments of a post in the order of their dates and, as
`ChatLogVM` does with its messages, appends those of the added documents.

* `commentVisits`: a view of comments over the results of its query.
* `comments_of_appends`: **where every snapshot only appends, the comments shown are those of
  the query in its order**.
* `appended_lists`: the same for messages and comments, next to what a view shows that is
  closed and opened again.
-/

namespace Subtle.Feed

open Subtle.Firestore Subtle.Lib Subtle.Chat

/-! ### The comments of a result -/

/-- The comment of a document that decodes. -/
def commentOf (fields : Fields) : Option CommentModel :=
  match CommentModel.fromDictionary fields with
  | .returns comment => some comment
  | _ => none

/-- The comment of a document, under its id. -/
def decodeComment (id : String) (fields : Fields) : Option (String × CommentModel) :=
  (commentOf fields).map fun comment => (id, comment)

/-- The date of a document, where it is a number. -/
def commentDate (fields : Fields) : Option Int := (fields.document "date").bind asNumber

/-- The order of the query: by date, and by id where the dates are equal. -/
def CommentBefore : String × CommentModel → String × CommentModel → Prop :=
  LexBefore (fun c => c.2.date) Prod.fst

instance (c c' : String × CommentModel) : Decidable (CommentBefore c c') :=
  inferInstanceAs (Decidable (_ ∨ _))

theorem keyed_decodeComment : Keyed decodeComment Prod.fst := by
  intro id fields c h
  obtain ⟨comment, -, rfl⟩ := Option.map_eq_some_iff.mp h
  rfl

theorem commentOf_eq_some {fields : Fields} {comment : CommentModel}
    (h : commentOf fields = some comment) :
    CommentModel.fromDictionary fields = .returns comment := by
  unfold commentOf at h
  split at h
  next hreturns => rw [hreturns, Option.some.inj h]
  next => exact absurd h (Option.some_ne_none _).symm

theorem eq_some_of_returns {decoded : Option CommentModel} {comment : CommentModel}
    (h : decoded.elim .throws Decoding.returns = .returns comment) : decoded = some comment := by
  cases decoded with
  | none => nomatch h
  | some c => rw [Decoding.returns.inj h]

theorem commentDate_of_decodeComment {id : String} {fields : Fields} {c : String × CommentModel}
    (h : decodeComment id fields = some c) : commentDate fields = some c.2.date := by
  obtain ⟨comment, hcomment, rfl⟩ := Option.map_eq_some_iff.mp h
  have hreturns := commentOf_eq_some hcomment
  unfold CommentModel.fromDictionary at hreturns
  split_ifs at hreturns
  have hdecoded := eq_some_of_returns hreturns
  iterate 4 obtain ⟨_, -, hdecoded⟩ := Option.bind_eq_some_iff.mp hdecoded
  obtain ⟨date, hdate, hdecoded⟩ := Option.bind_eq_some_iff.mp hdecoded
  obtain ⟨_, -, hdecoded⟩ := Option.bind_eq_some_iff.mp hdecoded
  obtain rfl := Option.some.inj hdecoded
  exact hdate

/-- The result of `order(by: "date", descending: false)`: documents with different ids, and
those with a number for a date in the order of the query. -/
structure CommentResult where
  documents : List (String × Fields)
  ids_nodup : (documents.map Prod.fst).Nodup
  ordered : documents.Pairwise fun d e => ∀ s ∈ commentDate d.2, ∀ t ∈ commentDate e.2,
    s < t ∨ s = t ∧ d.1 < e.1

namespace CommentResult

def empty : CommentResult := ⟨[], List.nodup_nil, .nil⟩

/-- The comments of the documents that decode. -/
def comments (result : CommentResult) : List CommentModel :=
  (decoded decodeComment result.documents).map Prod.snd

theorem comments_ordered (result : CommentResult) :
    (decoded decodeComment result.documents).Pairwise CommentBefore :=
  pairwise_decoded keyed_decodeComment (fun _ _ _ h => commentDate_of_decodeComment h)
    result.ordered

end CommentResult

/-- The comments that a snapshot adds. -/
theorem filterMap_addedComment (changes : List (Change String Fields)) :
    changes.filterMap addedComment = (decodedAdded decodeComment changes).map Prod.snd := by
  rw [decodedAdded, List.map_filterMap]
  apply List.filterMap_congr
  intro change _
  unfold addedComment decodeComment commentOf
  split_ifs
  · cases CommentModel.fromDictionary change.document <;> rfl
  · rfl

/-- **A view that is closed and opened again shows the comments of the query.** -/
theorem comments_reopened {s t : CommentService} {postId : String} {result : CommentResult}
    (h : commentView.run s [.onDisappear, .onAppear (some postId),
      .snapshot (some (documentChanges [] result.documents))] = some t) :
    t.comments = result.comments := by
  obtain ⟨s₁, -, h⟩ := Machine.run_cons.mp h
  obtain ⟨s₂, hload, h⟩ := Machine.run_cons.mp h
  obtain ⟨s₃, hsnapshot, h⟩ := Machine.run_cons.mp h
  obtain rfl := Option.some.inj h
  have hempty : s₂.comments = [] :=
    CommentService.comments_step (s := s₁) (e := .onAppear (some postId)) hload
  have hfirst := CommentService.comments_step (s := s₂)
    (e := .snapshot (some (documentChanges [] result.documents))) hsnapshot
  rw [hempty, documentChanges_nil] at hfirst
  rw [hfirst, CommentResult.comments, ← decodedAdded_asChanges]
  exact filterMap_addedComment _

/-- A view can be closed and opened again where no document raises. -/
theorem exists_reopened {s : CommentService} {postId : String} {result : CommentResult}
    (h : ∀ d ∈ result.documents, CommentModel.fromDictionary d.2 ≠ .raises) :
    ∃ t, commentView.run s [.onDisappear, .onAppear (some postId),
      .snapshot (some (documentChanges [] result.documents))] = some t := by
  have hreadable : ∀ change ∈ documentChanges [] result.documents,
      CommentModel.fromDictionary change.document ≠ .raises := by
    rw [documentChanges_nil]
    intro change hchange
    obtain ⟨d, hd, rfl⟩ := List.mem_map.mp hchange
    exact h d hd
  obtain ⟨s₁, hclose, hclosed⟩ : ∃ s₁, s.step .onDisappear = some s₁ ∧ s₁.listening = false := by
    refine ⟨_, rfl, ?_⟩
    cases s.listener <;> rfl
  obtain ⟨p, hloop⟩ := @CommentService.exists_handleChanges _ { s₁ with postId }.loadComment []
    hreadable
  have hopen : s₁.step (.onAppear (some postId)) = some { s₁ with postId }.loadComment := by
    simp [CommentService.step, hclosed]
  have hsnapshot : { s₁ with postId }.loadComment.step
      (.snapshot (some (documentChanges [] result.documents))) = some (p.1.onSuccess p.2) := by
    show (CommentService.handleChanges _ [] _).map _ = _
    rw [hloop]
    rfl
  exact ⟨_, Machine.run_cons.mpr ⟨s₁, hclose, Machine.run_cons.mpr ⟨_, hopen,
    Machine.run_cons.mpr ⟨_, hsnapshot, rfl⟩⟩⟩⟩

/-! ### A view over the snapshots of its listener -/

/-- The comments of a view and the result that its listener was given last. -/
structure OpenComments where
  service : CommentService
  result : CommentResult

/-- What happens to a view of comments, with the results that its listener is given. -/
inductive ViewEvent where
  | onAppear (postId : Option String)
  | onDisappear
  | snapshot (result : CommentResult)
  | error

namespace OpenComments

def start : OpenComments := ⟨CommentService.init, CommentResult.empty⟩

def step (s : OpenComments) : ViewEvent → Option OpenComments
  | .onAppear postId => (s.service.step (.onAppear postId)).map fun service =>
      -- a new listener has not been given a result
      ⟨service, if postId.isSome then CommentResult.empty else s.result⟩
  | .onDisappear => (s.service.step .onDisappear).map fun service => ⟨service, s.result⟩
  | .snapshot result =>
      (s.service.step
        (.snapshot (some (documentChanges s.result.documents result.documents)))).map
          fun service => ⟨service, result⟩
  | .error => (s.service.step (.snapshot none)).map fun service => ⟨service, s.result⟩

/-- The view shows the comments of the current documents, the earliest first. -/
def Current (s : OpenComments) : Prop := s.service.comments = s.result.comments

/-- The snapshot takes no comment away, and what it adds belongs at the end. -/
def Appends (s : OpenComments) : ViewEvent → Prop
  | .snapshot result => AppendOnly decodeComment CommentBefore s.result.documents
      result.documents
  | _ => True

instance (s : OpenComments) (e : ViewEvent) : Decidable (s.Appends e) :=
  match e with
  | .snapshot result =>
      inferInstanceAs (Decidable (AppendOnly _ _ s.result.documents result.documents))
  | .onAppear _ | .onDisappear | .error => isTrue trivial

end OpenComments

def commentVisits : Machine OpenComments ViewEvent := ⟨OpenComments.step⟩

theorem OpenComments.current_step {s s' : OpenComments} {e : ViewEvent} (hs : s.Current)
    (happends : s.Appends e) (h : commentVisits.step s e = some s') : s'.Current := by
  cases e with
  | onAppear postId =>
    obtain ⟨service, hstep, rfl⟩ := Option.map_eq_some_iff.mp h
    have hcomments := CommentService.comments_step hstep
    cases postId with
    | none => exact hcomments.trans ((List.append_nil _).trans hs)
    | some postId => exact hcomments
  | onDisappear =>
    obtain rfl := Option.some.inj h
    exact hs
  | error =>
    obtain ⟨service, hstep, rfl⟩ := Option.map_eq_some_iff.mp h
    exact (CommentService.comments_step hstep).trans ((List.append_nil _).trans hs)
  | snapshot result =>
    obtain ⟨service, hstep, rfl⟩ := Option.map_eq_some_iff.mp h
    have hcomments : service.comments = s.service.comments ++
        (documentChanges s.result.documents result.documents).filterMap addedComment :=
      CommentService.comments_step hstep
    have happend := (append_eq_iff keyed_decodeComment
      (fun c c' hc hc' => absurd hc' (LexBefore.asymm hc)) s.result.ids_nodup result.ids_nodup
      s.result.comments_ordered result.comments_ordered).mpr happends
    show service.comments = result.comments
    rw [hcomments, hs, filterMap_addedComment, CommentResult.comments, ← List.map_append,
      happend, CommentResult.comments]

/-- **Where every snapshot only appends, the comments shown are those of the query in its
order.** -/
theorem comments_of_appends {fs : List ViewEvent}
    (h : commentVisits.Along OpenComments.Appends .start fs) :
    commentVisits.Always OpenComments.Current .start fs :=
  Machine.always_of_along (fun _ _ _ hs happends hstep =>
    OpenComments.current_step hs happends hstep) rfl h

/-- **Messages and comments are, after every snapshot, those that a view shows that is closed
and opened again, where every snapshot only appends**; for messages the two are the same. -/
theorem appended_lists {senderId receiverId : String} {es : List ListenerEvent} {log : OpenLog}
    (hlog : chatLog.run (.start (some senderId) (some receiverId)) es = some log) :
    (chatLog.Always OpenLog.Current (.start (some senderId) (some receiverId)) es ↔
      chatLog.Along OpenLog.Appends (.start (some senderId) (some receiverId)) es) ∧
    (∀ result : QueryResult, ((ChatLog.init (some senderId) (some receiverId)).handle
      (documentChanges [] result.documents)).chatMessages = result.messages) ∧
    (∀ fs, commentVisits.Along OpenComments.Appends .start fs →
      commentVisits.Always OpenComments.Current .start fs) ∧
    ∀ (s t : CommentService) (postId : String) (result : CommentResult),
      commentView.run s [.onDisappear, .onAppear (some postId),
        .snapshot (some (documentChanges [] result.documents))] = some t →
          t.comments = result.comments :=
  ⟨chatMessages_iff hlog, ChatLog.chatMessages_init senderId receiverId,
    fun _ => comments_of_appends, fun _ _ _ _ => comments_reopened⟩

/-- A message of Ann's to Bob. -/
def annToBob (id text : String) (time : Int) : String × Fields :=
  (id, [("senderId", .string "ann"), ("receiverId", .string "bob"), ("text", .string text),
    ("time", .timestamp time)])

def oneMessage : QueryResult where
  documents := [annToBob "m1" "hi" 5]
  ids_nodup := by decide
  ordered := by decide

/-- A message from a device whose clock is right. -/
def thenAnother : QueryResult where
  documents := [annToBob "m1" "hi" 5, annToBob "m2" "there?" 6]
  ids_nodup := by decide
  ordered := by decide

/-- A message from a device whose clock is late. -/
def beforeThat : QueryResult where
  documents := [annToBob "m2" "there?" 4, annToBob "m1" "hi" 5]
  ids_nodup := by decide
  ordered := by decide

def oneComment : CommentResult where
  documents := [("c1", CommentService.commentDocument "hi")]
  ids_nodup := by decide
  ordered := by decide

/-- Bob's second comment, which the server may still reject. -/
def secondComment : CommentResult where
  documents := [("c1", CommentService.commentDocument "hi"),
    ("c2", CommentService.commentDocument "you")]
  ids_nodup := by decide
  ordered := by decide

theorem appended_lists_example :
    chatLog.Always OpenLog.Current (.start (some "ann") (some "bob"))
      [.snapshot oneMessage, .error, .snapshot thenAnother] ∧
    commentVisits.Always OpenComments.Current .start
      [.onAppear (some "post"), .snapshot oneComment, .snapshot secondComment, .onDisappear,
        .onAppear (some "post"), .snapshot secondComment] := by
  have hlog : ∃ log, chatLog.run (.start (some "ann") (some "bob"))
      [.snapshot oneMessage, .error, .snapshot thenAnother] = some log := ⟨_, rfl⟩
  obtain ⟨log, hlog⟩ := hlog
  obtain ⟨hmessages, -, hcomments, -⟩ := appended_lists hlog
  exact ⟨hmessages.mpr (by decide), hcomments _ (by decide +kernel)⟩

/-- A message with an earlier time is shown last, and a rejected comment stays. -/
theorem late_message_rejected_comment :
    (¬ ∀ (senderId receiverId : String) (es : List ListenerEvent) (s : OpenLog),
      chatLog.run (.start (some senderId) (some receiverId)) es = some s →
        s.log.chatMessages = s.result.messages) ∧
    ¬ ∀ (fs : List ViewEvent) (s : OpenComments),
      commentVisits.run .start fs = some s → s.service.comments = s.result.comments := by
  refine ⟨fun h => ?_, fun h => ?_⟩
  · have hlist := h "ann" "bob" [.snapshot oneMessage, .snapshot beforeThat] _ rfl
    exact absurd hlist (by decide)
  · have hlist := h [.onAppear (some "post"), .snapshot secondComment, .snapshot oneComment] _ rfl
    exact absurd (congrArg List.length hlist) (by decide +kernel)

end Subtle.Feed
