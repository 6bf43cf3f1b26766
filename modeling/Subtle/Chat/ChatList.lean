import Subtle.Firestore.Value
import Subtle.Lib.Machine
import Subtle.Lib.Snapshot
import Mathlib.Data.String.Basic

/-!
# The list of chats

`ChatListVM` listens to the documents of `Recents/senderId/Messages` in the order of
their times.  It moves the document of every change to the front of its list, of
whatever kind the change is and wherever the document stands in the query.

The names that `getNameFromId` looks up for the list are left out.

* `chatList`: a listener over the results of its query, one snapshot for each.
* `recentMessages_iff`: **the list is, after every snapshot, the list that a new
  `ChatListVM` shows exactly when every snapshot is tidy**.
-/

namespace Subtle.Chat

open Subtle.Firestore Subtle.Lib

/-- A `Message` as it is decoded: its `id` is that of the document. -/
structure RecentMessage where
  id : String
  senderId : String
  receiverId : String
  text : String
  time : Int
  deriving DecidableEq

namespace RecentMessage

/-- The time of a document, where it is a timestamp. -/
def timestamp (fields : Fields) : Option Int := (fields.document "time").bind Value.asTimestamp

def decode (id : String) (fields : Fields) : Option RecentMessage := do
  -- `@DocumentID` cannot be assigned over a field of that name
  guard (fields.document "id" = none)
  let senderId ← (fields.document "senderId").bind Value.asString
  let receiverId ← (fields.document "receiverId").bind Value.asString
  let text ← (fields.document "text").bind Value.asString
  let time ← timestamp fields
  return { id, senderId, receiverId, text, time }

/-- The order of the query: by time, and by id where the times are equal. -/
def Before (m m' : RecentMessage) : Prop := m.time < m'.time ∨ m.time = m'.time ∧ m.id < m'.id

instance (m m' : RecentMessage) : Decidable (Before m m') := inferInstanceAs (Decidable (_ ∨ _))

theorem keyed_decode : Keyed decode RecentMessage.id := by
  intro id fields m h
  unfold decode at h
  iterate 5 obtain ⟨_, -, h⟩ := Option.bind_eq_some_iff.mp h
  exact (Option.some.inj h) ▸ rfl

theorem time_of_decode {id : String} {fields : Fields} {m : RecentMessage}
    (h : decode id fields = some m) : timestamp fields = some m.time := by
  unfold decode at h
  iterate 4 obtain ⟨_, -, h⟩ := Option.bind_eq_some_iff.mp h
  obtain ⟨time, htime, h⟩ := Option.bind_eq_some_iff.mp h
  obtain rfl := Option.some.inj h
  exact htime

theorem Before.asymm {m m' : RecentMessage} (h : Before m m') : ¬ Before m' m := by
  show ¬ LexBefore RecentMessage.time RecentMessage.id m' m
  exact LexBefore.asymm h

end RecentMessage

/-- The result of `order(by: "time")`: documents with different ids, and those with a
timestamp in the order of the query. -/
structure QueryResult where
  documents : List (String × Fields)
  ids_nodup : (documents.map Prod.fst).Nodup
  ordered : documents.Pairwise fun d e => ∀ s ∈ RecentMessage.timestamp d.2,
    ∀ t ∈ RecentMessage.timestamp e.2, s < t ∨ s = t ∧ d.1 < e.1

namespace QueryResult

def empty : QueryResult := ⟨[], List.nodup_nil, .nil⟩

/-- The messages of the documents that decode. -/
def messages (result : QueryResult) : List RecentMessage :=
  decoded RecentMessage.decode result.documents

theorem messages_ordered (result : QueryResult) :
    result.messages.Pairwise RecentMessage.Before :=
  pairwise_decoded RecentMessage.keyed_decode (fun _ _ _ h => RecentMessage.time_of_decode h)
    result.ordered

end QueryResult

structure ChatListVM where
  listener : Option String
  recentMessages : List RecentMessage
  deriving DecidableEq

namespace ChatListVM

/-- `fetchRecentMessages`, which the initialiser calls: the list is emptied, and the
new listener waits for its first snapshot. -/
def fetchRecentMessages (sender : Option String) : ChatListVM := ⟨sender, []⟩

/-- One document change. -/
def handleChange (recentMessages : List RecentMessage) (change : Change String Fields) :
    List RecentMessage :=
  match RecentMessage.decode change.id change.document with
  | none => recentMessages
  -- the first entry with the id is removed, and the message inserted at the front
  | some message => message :: recentMessages.eraseP fun m => m.id = change.id

/-- The completion of the listener, for a snapshot without an error.  The lookup of names that
it starts changes no entry. -/
def handle (vm : ChatListVM) (changes : List (Change String Fields)) : ChatListVM :=
  { vm with recentMessages := changes.foldl handleChange vm.recentMessages }

/-- A `ChatListVM` created when the query has this result, after its first snapshot. -/
def fresh (sender : String) (result : QueryResult) : ChatListVM :=
  (fetchRecentMessages (some sender)).handle (documentChanges [] result.documents)

theorem recentMessages_handle (vm : ChatListVM) (changes : List (Change String Fields)) :
    (vm.handle changes).recentMessages =
      follow RecentMessage.decode RecentMessage.id vm.recentMessages changes := by
  show changes.foldl handleChange vm.recentMessages = _
  generalize vm.recentMessages = shown
  induction changes generalizing shown with
  | nil => rfl
  | cons change changes ih =>
    rw [List.foldl_cons, ih, handleChange]
    cases hdecode : RecentMessage.decode change.id change.document with
    | none => rw [follow_cons_of_none hdecode]
    | some m =>
      rw [follow_cons_of_some hdecode, toFront, RecentMessage.keyed_decode _ _ _ hdecode]

/-- **A new list has the messages of the query, the latest first.** -/
theorem recentMessages_fresh (sender : String) (result : QueryResult) :
    (fresh sender result).recentMessages = result.messages.reverse := by
  rw [fresh, recentMessages_handle, documentChanges_nil]
  exact follow_nil_asChanges RecentMessage.keyed_decode _ result.ids_nodup

end ChatListVM

/-! ### A list over the snapshots of its listener -/

/-- A `ChatListVM` and the result that its listener was given last. -/
structure Listening where
  vm : ChatListVM
  result : QueryResult

inductive ListenerEvent where
  | snapshot (result : QueryResult)
  | error

namespace Listening

def start (sender : Option String) : Listening :=
  ⟨ChatListVM.fetchRecentMessages sender, QueryResult.empty⟩

def step (s : Listening) : ListenerEvent → Option Listening
  | .snapshot result => s.vm.listener.map fun _ =>
      ⟨s.vm.handle (documentChanges s.result.documents result.documents), result⟩
  | .error => some s

end Listening

def chatList : Machine Listening ListenerEvent := ⟨Listening.step⟩

/-- The snapshot takes nothing from the list, and what it changes belongs on top. -/
def TidySnapshot (s : Listening) : ListenerEvent → Prop
  | .snapshot result => Tidy RecentMessage.decode RecentMessage.Before s.result.documents
      result.documents
  | .error => True

/-- The list is the one that a new `ChatListVM` shows for the current result. -/
def Listening.Current (sender : String) (s : Listening) : Prop :=
  s.vm.recentMessages = (ChatListVM.fresh sender s.result).recentMessages

instance (s : Listening) (e : ListenerEvent) : Decidable (TidySnapshot s e) :=
  match e with
  | .snapshot result => inferInstanceAs (Decidable (Tidy _ _ s.result.documents result.documents))
  | .error => isTrue trivial

theorem current_step {sender : String} {s s' : Listening} {e : ListenerEvent}
    (hs : s.Current sender) (h : chatList.step s e = some s') :
    s'.Current sender ↔ TidySnapshot s e := by
  cases e with
  | error =>
    obtain rfl := Option.some.inj h
    exact iff_of_true hs trivial
  | snapshot result =>
    obtain ⟨_, -, rfl⟩ := Option.map_eq_some_iff.mp h
    have hfollow := follow_eq_iff RecentMessage.keyed_decode
      (fun b b' hb hb' => absurd hb' hb.asymm) s.result.ids_nodup result.ids_nodup
      s.result.messages_ordered result.messages_ordered
    rw [Listening.Current, ChatListVM.recentMessages_fresh] at hs
    rw [Listening.Current, ChatListVM.recentMessages_fresh, ChatListVM.recentMessages_handle, hs]
    exact hfollow

/-- **The list is, after every snapshot, the list that a new `ChatListVM` shows, all
messages of the query with the latest first, exactly when every snapshot is tidy.** -/
theorem recentMessages_iff {sender : String} {s : Listening} {es : List ListenerEvent}
    (hrun : chatList.run (.start (some sender)) es = some s) :
    (chatList.Always (Listening.Current sender) (.start (some sender)) es ↔
      chatList.Along TidySnapshot (.start (some sender)) es) ∧
    ∀ result, (ChatListVM.fresh sender result).recentMessages = result.messages.reverse := by
  refine ⟨?_, ChatListVM.recentMessages_fresh sender⟩
  apply Machine.always_iff (J := fun _ => True) (fun _ _ _ _ _ => trivial)
    (fun _ _ _ _ hs hstep => current_step hs hstep) trivial ?_ hrun
  rw [Listening.Current, ChatListVM.recentMessages_fresh]
  rfl

/-- The document of a chat of Ann. -/
def chatWith (partner text : String) (time : Int) : String × Fields :=
  (partner, [("senderId", .string partner), ("receiverId", .string "ann"),
    ("text", .string text), ("time", .timestamp time)])

def bobThenCarl : QueryResult where
  documents := [chatWith "bob" "hi" 1, chatWith "carl" "hello" 2]
  ids_nodup := by decide
  ordered := by decide

/-- Bob has written again. -/
def carlThenBob : QueryResult where
  documents := [chatWith "carl" "hello" 2, chatWith "bob" "there?" 3]
  ids_nodup := by decide
  ordered := by decide

/-- Carl's chat is gone. -/
def onlyBob : QueryResult where
  documents := [chatWith "bob" "hi" 1]
  ids_nodup := by decide
  ordered := by decide

theorem recentMessages_iff_example :
    chatList.Always (Listening.Current "ann") (.start (some "ann"))
      [.snapshot bobThenCarl, .error, .snapshot carlThenBob] :=
  (recentMessages_iff rfl).1.mpr (by decide)

/-- A removed chat goes to the top of the list. -/
theorem recentMessages_keep_removed : ¬ ∀ (sender : String) (s : Listening)
    (es : List ListenerEvent), chatList.run (.start (some sender)) es = some s →
      s.vm.recentMessages = (ChatListVM.fresh sender s.result).recentMessages := by
  intro h
  have hlist := h "ann" _ [.snapshot bobThenCarl, .snapshot onlyBob] rfl
  exact absurd (congrArg List.length hlist) (by decide)

end Subtle.Chat
