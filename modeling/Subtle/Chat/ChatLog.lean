import Subtle.Chat.ChatList
import Subtle.Chat.Send

/-!
# The log of a chat

`ChatLogVM` listens to the documents of `Messages/senderId/receiverId` in the order of their
times, and appends the message of every added document to its list.  A removed or modified
document changes nothing.

* `chatLog`: the view model over the results of its query, one snapshot for each.
* `chatMessages_iff`: **the messages shown are, after every snapshot, those of the query in
  its order exactly when every snapshot only appends**.
-/

namespace Subtle.Chat

open Subtle.Firestore Subtle.Lib

/-- A `ChatLogVM` with the messages that it shows. -/
structure ChatLog extends ChatLogVM where
  listener : Option Path
  chatMessages : List RecentMessage

namespace ChatLog

def fetchMessages (log : ChatLog) : ChatLog :=
  match log.senderId, log.receiverId with
  | some senderId, some receiverId =>
      { log with listener := some (senderId, receiverId), chatMessages := [] }
  | _, _ => log

def init (senderId receiverId : Option String) : ChatLog :=
  fetchMessages ⟨⟨"", senderId, receiverId⟩, none, []⟩

/-- One document change. -/
def handleChange (chatMessages : List RecentMessage) (change : Change String Fields) :
    List RecentMessage :=
  if change.kind = .added then
    match RecentMessage.decode change.id change.document with
    | none => chatMessages
    | some message => chatMessages ++ [message]
  else chatMessages

/-- The completion of the listener, for a snapshot without an error. -/
def handle (log : ChatLog) (changes : List (Change String Fields)) : ChatLog :=
  { log with chatMessages := changes.foldl handleChange log.chatMessages }

/-- **A snapshot appends the messages of its added documents.** -/
theorem chatMessages_handle (log : ChatLog) (changes : List (Change String Fields)) :
    (log.handle changes).chatMessages =
      log.chatMessages ++ decodedAdded RecentMessage.decode changes := by
  show changes.foldl handleChange log.chatMessages = _
  generalize log.chatMessages = shown
  induction changes generalizing shown with
  | nil => exact (List.append_nil shown).symm
  | cons change changes ih =>
    rw [List.foldl_cons, ih, handleChange]
    by_cases hkind : change.kind = .added
    · rw [if_pos hkind, decodedAdded_cons_of_added hkind]
      cases RecentMessage.decode change.id change.document with
      | none => rfl
      | some m => exact List.append_assoc shown [m] _
    · rw [if_neg hkind, decodedAdded_cons_of_ne hkind]

/-- **A new log has the messages of the query.** -/
theorem chatMessages_init (senderId receiverId : String) (result : QueryResult) :
    ((init (some senderId) (some receiverId)).handle
      (documentChanges [] result.documents)).chatMessages = result.messages := by
  rw [chatMessages_handle, documentChanges_nil, decodedAdded_asChanges]
  exact List.nil_append _

end ChatLog

/-! ### A log over the snapshots of its listener -/

/-- A `ChatLog` and the result that its listener was given last. -/
structure OpenLog where
  log : ChatLog
  result : QueryResult

namespace OpenLog

def start (senderId receiverId : Option String) : OpenLog :=
  ⟨ChatLog.init senderId receiverId, QueryResult.empty⟩

def step (s : OpenLog) : ListenerEvent → Option OpenLog
  | .snapshot result => s.log.listener.map fun _ =>
      ⟨s.log.handle (documentChanges s.result.documents result.documents), result⟩
  | .error => some s

/-- The log shows the messages of the current documents, the earliest first. -/
def Current (s : OpenLog) : Prop := s.log.chatMessages = s.result.messages

/-- The snapshot takes nothing from the log, and what it adds belongs at the end. -/
def Appends (s : OpenLog) : ListenerEvent → Prop
  | .snapshot result => AppendOnly RecentMessage.decode RecentMessage.Before s.result.documents
      result.documents
  | .error => True

instance (s : OpenLog) (e : ListenerEvent) : Decidable (s.Appends e) :=
  match e with
  | .snapshot result =>
      inferInstanceAs (Decidable (AppendOnly _ _ s.result.documents result.documents))
  | .error => isTrue trivial

theorem current_start (senderId receiverId : Option String) :
    (start senderId receiverId).Current := by
  show (ChatLog.init senderId receiverId).chatMessages = []
  unfold ChatLog.init ChatLog.fetchMessages
  split <;> rfl

end OpenLog

def chatLog : Machine OpenLog ListenerEvent := ⟨OpenLog.step⟩

theorem OpenLog.current_step {s s' : OpenLog} {e : ListenerEvent} (hs : s.Current)
    (h : chatLog.step s e = some s') : s'.Current ↔ s.Appends e := by
  cases e with
  | error =>
    obtain rfl := Option.some.inj h
    exact iff_of_true hs trivial
  | snapshot result =>
    obtain ⟨_, -, rfl⟩ := Option.map_eq_some_iff.mp h
    have happend := append_eq_iff RecentMessage.keyed_decode
      (fun b b' hb hb' => absurd hb' hb.asymm) s.result.ids_nodup result.ids_nodup
      s.result.messages_ordered result.messages_ordered
    rw [Current] at hs
    rw [Current, ChatLog.chatMessages_handle, hs]
    exact happend

/-- **The messages shown are, after every snapshot, those of the query in its order exactly
when every snapshot only appends.** -/
theorem chatMessages_iff {senderId receiverId : Option String} {es : List ListenerEvent}
    {s : OpenLog} (hrun : chatLog.run (.start senderId receiverId) es = some s) :
    chatLog.Always OpenLog.Current (.start senderId receiverId) es ↔
      chatLog.Along OpenLog.Appends (.start senderId receiverId) es :=
  Machine.always_iff (J := fun _ => True) (fun _ _ _ _ _ => trivial)
    (fun _ _ _ _ hs hstep => OpenLog.current_step hs hstep) trivial
    (OpenLog.current_start senderId receiverId) hrun

end Subtle.Chat
