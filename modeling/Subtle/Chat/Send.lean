import Subtle.Lib.Machine
import Mathlib.Logic.Function.Basic

/-!
# Sending a message

`handleSend` writes a message to two logs, `Messages/sender/receiver` and
`Messages/receiver/sender`, under a fresh document id each.  The handler of the
first write alone goes on to `persistRecentMessage`, which sets the two documents
`Recents/sender/Messages/receiver` and `Recents/receiver/Messages/sender`.  None of
the four writes waits for another beyond that, and a handler that is given an error
only prints it.

A write commits, or fails, and its handler runs when the write is answered.

* `Consistent`: what the logs and the recent messages have to do with the messages
  sent and with the outcomes of their writes.
* `consistent_run`: **every run keeps it**, whatever fails and in whatever order.
-/

namespace Subtle.Chat

open Subtle.Lib

/-- A message; its `UUID` is its position among all messages sent. -/
structure Message where
  id : Nat
  senderId : String
  receiverId : String
  text : String
  time : Int
  deriving DecidableEq

/-- An open chat.  `messageCount`, which scrolls the view, is left out. -/
structure ChatLogVM where
  chatText : String
  senderId : Option String
  receiverId : Option String

/-- A call of `handleSend` that passed its guards: the chat and the message. -/
structure Send where
  vm : Nat
  message : Message
  deriving DecidableEq

/-- Two ids, the first of them above the second in the path of a document. -/
abbrev Path := String × String

/-- Which of the two log documents of a message. -/
inductive Side where
  | sender
  | receiver
  deriving DecidableEq

/-- The id of a log document: fresh, so it names its message and the side. -/
abbrev AutoId := Nat × Side

/-- `Recents/senderId/Messages/receiverId`. -/
def getChatListDocument (senderId receiverId : String) : Path := (senderId, receiverId)

/-- `Messages/senderId/receiverId/autoId`. -/
def getChatLogDocument (senderId receiverId : String) (autoId : AutoId) : Path × AutoId :=
  ((senderId, receiverId), autoId)

/-- The document writes of a send. -/
inductive Write where
  | senderLog (x : Send)
  | receiverLog (x : Send)
  | recent (path : Path) (message : Message)
  deriving DecidableEq

namespace Write

def message : Write → Message
  | senderLog x | receiverLog x => x.message
  | recent _ m => m

/-- The document of `Messages` that the write sets. -/
def logDocument : Write → Option (Path × AutoId)
  | senderLog x =>
      getChatLogDocument x.message.senderId x.message.receiverId (x.message.id, .sender)
  | receiverLog x =>
      getChatLogDocument x.message.receiverId x.message.senderId (x.message.id, .receiver)
  | recent _ _ => none

end Write

/-- The open chats and the stored documents.  `sent` and `outcomes` record the sends
and what the backend answered to each write. -/
structure Messenger where
  vms : List ChatLogVM
  logs : Path × AutoId → Option Message
  recents : Path → Option Message
  sent : List Send
  outcomes : List (Write × Bool)

def Messenger.empty : Messenger := ⟨[], fun _ => none, fun _ => none, [], []⟩

/-- `handleSend` in the chat at `i`. -/
def handleSend (i : Nat) (time : Int) (vm : ChatLogVM) (s : Messenger) : Messenger × List Write :=
  match vm.senderId, vm.receiverId with
  | some senderId, some receiverId =>
      let message : Message := ⟨s.sent.length, senderId, receiverId, vm.chatText, time⟩
      ({ s with sent := s.sent ++ [⟨i, message⟩] },
        [.senderLog ⟨i, message⟩, .receiverLog ⟨i, message⟩])
  | _, _ => (s, [])

def persistRecentMessage (vm : ChatLogVM) (message : Message) : List Write :=
  match vm.senderId, vm.receiverId with
  | some senderId, some receiverId =>
      [.recent (getChatListDocument senderId receiverId) message,
        .recent (getChatListDocument receiverId senderId) message]
  | _, _ => []

/-- The completion of the write to the sender's log, in the chat it was sent from. -/
def senderSaved (x : Send) (s : Messenger) : Messenger × List Write :=
  match s.vms[x.vm]? with
  | some vm =>
      ({ s with vms := s.vms.set x.vm { vm with chatText := "" } },
        persistRecentMessage vm x.message)
  | none => (s, [])

/-- The stored documents once a write has committed. -/
def Write.commit (s : Messenger) : Write → Messenger
  | senderLog x => { s with
      logs := Function.update s.logs (getChatLogDocument x.message.senderId x.message.receiverId
        (x.message.id, .sender)) (some x.message) }
  | receiverLog x => { s with
      logs := Function.update s.logs (getChatLogDocument x.message.receiverId x.message.senderId
        (x.message.id, .receiver)) (some x.message) }
  | recent path m => { s with recents := Function.update s.recents path (some m) }

/-- A write commits or fails, and its handler runs. -/
def answerWrite (s : Messenger) (w : Write) (ok : Bool) : Messenger × List Write :=
  let s := { s with outcomes := s.outcomes ++ [(w, ok)] }
  match w, ok with
  | .senderLog x, true => senderSaved x (Write.commit s (.senderLog x))
  | w, true => (w.commit s, [])
  | _, false => (s, [])

inductive Call where
  | openChat (currentUser receiverId : Option String)
  | type (vm : Nat) (text : String)
  | send (vm : Nat) (time : Int)
  deriving DecidableEq

/-- The chats of all users, over one store. -/
def messaging : Service Messenger Call Write Bool where
  call s
    | .openChat currentUser receiverId =>
        some ({ s with vms := s.vms ++ [⟨"", currentUser, receiverId⟩] }, [])
    | .type i text => (s.vms[i]?).map fun vm =>
        ({ s with vms := s.vms.set i { vm with chatText := text } }, [])
    | .send i time => (s.vms[i]?).map fun vm => handleSend i time vm s
  answer s w ok := some (answerWrite s w ok)

/-! ### What a state says about the messages sent -/

/-- A write has been issued: it is outstanding or was answered. -/
def Issued (s : Messenger) (ops : List Write) (w : Write) : Prop :=
  w ∈ ops ∨ ∃ ok, (w, ok) ∈ s.outcomes

/-- A write belongs to a message sent, and a recent message to one that the sender's
log has. -/
def Genuine (s : Messenger) : Write → Prop
  | .senderLog x | .receiverLog x => x ∈ s.sent
  | .recent path m => ∃ x ∈ s.sent, x.message = m ∧ (.senderLog x, true) ∈ s.outcomes ∧
      (path = (m.senderId, m.receiverId) ∨ path = (m.receiverId, m.senderId))

/-- The messages sent, the chats they were sent from and their writes. -/
structure Tracked (s : Messenger) (ops : List Write) : Prop where
  id : ∀ (i : Nat) x, s.sent[i]? = some x → x.message.id = i
  vm : ∀ x ∈ s.sent, ∃ vm, s.vms[x.vm]? = some vm ∧ vm.senderId = some x.message.senderId ∧
    vm.receiverId = some x.message.receiverId
  issued : ∀ x ∈ s.sent, Issued s ops (.senderLog x) ∧ Issued s ops (.receiverLog x)
  genuine : ∀ w, Issued s ops w → Genuine s w

/-- The stored documents as well: a log document is there exactly when its write has
succeeded. -/
structure Consistent (s : Messenger) (ops : List Write) : Prop extends Tracked s ops where
  logs : ∀ document m, s.logs document = some m ↔
    ∃ w, (w, true) ∈ s.outcomes ∧ w.logDocument = some document ∧ w.message = m
  recents : ∀ path m, s.recents path = some m → Genuine s (.recent path m)

variable {s s' : Messenger} {ops new pre post : List Write} {v w : Write}

theorem Genuine.mono (hsent : s.sent ⊆ s'.sent) (hout : s.outcomes ⊆ s'.outcomes)
    (h : Genuine s w) : Genuine s' w := by
  cases w with
  | senderLog x => exact hsent h
  | receiverLog x => exact hsent h
  | recent path m =>
    obtain ⟨x, hx, hm, ho, hp⟩ := h
    exact ⟨x, hsent hx, hm, hout ho, hp⟩

/-- An answered write has left the outstanding ones and is among the outcomes. -/
theorem issued_answer {ok : Bool} :
    Issued { s with outcomes := s.outcomes ++ [(w, ok)] } (pre ++ post) v ↔
      Issued s (pre ++ w :: post) v := by
  simp only [Issued, List.mem_append, List.mem_cons, List.not_mem_nil, or_false, Prod.mk.injEq,
    exists_or, exists_and_left, exists_eq, and_true]
  tauto

@[simp] theorem commit_sent : (w.commit s).sent = s.sent := by cases w <;> rfl

@[simp] theorem commit_outcomes : (w.commit s).outcomes = s.outcomes := by cases w <;> rfl

theorem commit_logs (document : Path × AutoId) : (w.commit s).logs document =
    if w.logDocument = some document then some w.message else s.logs document := by
  cases w <;> simp [Write.commit, Write.logDocument, Write.message, Function.update_apply, eq_comm]

theorem commit_recents (path : Path) : (w.commit s).recents path =
    if w = .recent path w.message then some w.message else s.recents path := by
  cases w <;> simp [Write.commit, Write.message, Function.update_apply, eq_comm]

namespace Tracked

/-- The id of a message tells it from the others. -/
theorem send_inj (h : Tracked s ops) {x y : Send} (hx : x ∈ s.sent) (hy : y ∈ s.sent)
    (hid : x.message.id = y.message.id) : x = y := by
  obtain ⟨i, hi⟩ := List.mem_iff_getElem?.mp hx
  obtain ⟨j, hj⟩ := List.mem_iff_getElem?.mp hy
  have hij : i = j := by rw [← h.id i x hi, ← h.id j y hj, hid]
  subst hij
  exact Option.some.inj (hi.symm.trans hj)

/-- A log document is set by one write only. -/
theorem write_inj (h : Tracked s ops) (hv : Issued s ops v) (hw : Issued s ops w)
    {document : Path × AutoId} (hdv : v.logDocument = some document)
    (hdw : w.logDocument = some document) : v = w := by
  have hgv := h.genuine v hv
  have hgw := h.genuine w hw
  cases v with
  | recent path m => exact absurd hdv (by simp [Write.logDocument])
  | senderLog x =>
    obtain rfl := Option.some.inj hdv
    cases w with
    | recent path m => exact absurd hdw (by simp [Write.logDocument])
    | receiverLog y => exact absurd hdw (by simp [Write.logDocument, getChatLogDocument])
    | senderLog y =>
      simp only [Write.logDocument, getChatLogDocument, Option.some.injEq, Prod.mk.injEq] at hdw
      rw [h.send_inj hgw hgv hdw.2.1]
  | receiverLog x =>
    obtain rfl := Option.some.inj hdv
    cases w with
    | recent path m => exact absurd hdw (by simp [Write.logDocument])
    | senderLog y => exact absurd hdw (by simp [Write.logDocument, getChatLogDocument])
    | receiverLog y =>
      simp only [Write.logDocument, getChatLogDocument, Option.some.injEq, Prod.mk.injEq] at hdw
      rw [h.send_inj hgw hgv hdw.2.1]

theorem answer (h : Tracked s (pre ++ w :: post)) (ok : Bool) :
    Tracked { s with outcomes := s.outcomes ++ [(w, ok)] } (pre ++ post) := by
  refine ⟨h.id, h.vm, ?_, ?_⟩
  · intro x hx
    obtain ⟨hs, hr⟩ := h.issued x hx
    exact ⟨issued_answer.mpr hs, issued_answer.mpr hr⟩
  · intro v hv
    exact Genuine.mono (s := s) (fun _ hx => hx) (List.subset_append_left _ _)
      (h.genuine v (issued_answer.mp hv))

theorem commit (h : Tracked s ops) (w : Write) : Tracked (w.commit s) ops := by
  cases w <;> exact ⟨h.id, h.vm, h.issued, h.genuine⟩

end Tracked

/-- The ids of a chat never change. -/
def SameIds (vms vms' : List ChatLogVM) : Prop :=
  ∀ (i : Nat) vm, vms[i]? = some vm →
    ∃ vm', vms'[i]? = some vm' ∧ vm'.senderId = vm.senderId ∧ vm'.receiverId = vm.receiverId

theorem sameIds_set {vms : List ChatLogVM} {i : Nat} {vm : ChatLogVM} (hvm : vms[i]? = some vm)
    (text : String) : SameIds vms (vms.set i { vm with chatText := text }) := by
  intro j vm' hj
  obtain ⟨hi, -⟩ := List.getElem?_eq_some_iff.mp hvm
  by_cases hij : i = j
  · subst hij
    obtain rfl := Option.some.inj (hvm.symm.trans hj)
    exact ⟨_, List.getElem?_set_self hi, rfl, rfl⟩
  · exact ⟨vm', (List.getElem?_set_ne hij).trans hj, rfl, rfl⟩

theorem sameIds_append (vms : List ChatLogVM) (vm : ChatLogVM) : SameIds vms (vms ++ [vm]) := by
  intro i vm' hi
  obtain ⟨hlt, -⟩ := List.getElem?_eq_some_iff.mp hi
  exact ⟨vm', (List.getElem?_append_left hlt).trans hi, rfl, rfl⟩

/-- **What a call can do**: change the open chats, but not their ids, or send a message
from one of them. -/
theorem call_cases {c : Call} (h : messaging.call s c = some (s', new)) :
    (∃ vms, SameIds s.vms vms ∧ s' = { s with vms := vms } ∧ new = []) ∨
    ∃ x vm, s.vms[x.vm]? = some vm ∧ vm.senderId = some x.message.senderId ∧
      vm.receiverId = some x.message.receiverId ∧ x.message.id = s.sent.length ∧
      s' = { s with sent := s.sent ++ [x] } ∧ new = [.senderLog x, .receiverLog x] := by
  cases c with
  | openChat currentUser receiverId =>
    obtain ⟨rfl, rfl⟩ := Prod.mk.inj (Option.some.inj h)
    exact Or.inl ⟨_, sameIds_append s.vms _, rfl, rfl⟩
  | type i text =>
    obtain ⟨vm, hvm, heq⟩ := Option.map_eq_some_iff.mp h
    obtain ⟨rfl, rfl⟩ := Prod.mk.inj heq
    exact Or.inl ⟨_, sameIds_set hvm text, rfl, rfl⟩
  | send i time =>
    obtain ⟨vm, hvm, heq⟩ := Option.map_eq_some_iff.mp h
    unfold handleSend at heq
    split at heq
    · rename_i senderId receiverId hs hr
      obtain ⟨rfl, rfl⟩ := Prod.mk.inj heq
      exact Or.inr ⟨⟨i, _⟩, vm, hvm, hs, hr, rfl, rfl, rfl⟩
    · -- a chat without both ids sends nothing
      obtain ⟨rfl, rfl⟩ := Prod.mk.inj heq
      exact Or.inl ⟨s.vms, fun i vm hi => ⟨vm, hi, rfl, rfl⟩, rfl, rfl⟩

namespace Consistent

theorem of_vms (h : Consistent s ops) {vms' : List ChatLogVM} (hids : SameIds s.vms vms') :
    Consistent { s with vms := vms' } ops := by
  refine ⟨⟨h.id, ?_, h.issued, h.genuine⟩, h.logs, h.recents⟩
  intro x hx
  obtain ⟨vm, hvm, hs, hr⟩ := h.vm x hx
  obtain ⟨vm', hvm', hs', hr'⟩ := hids x.vm vm hvm
  exact ⟨vm', hvm', hs'.trans hs, hr'.trans hr⟩

/-- Genuine writes may be issued. -/
theorem issue (h : Consistent s ops) (hnew : ∀ w ∈ new, Genuine s w) :
    Consistent s (ops ++ new) := by
  refine ⟨⟨h.id, h.vm, ?_, ?_⟩, h.logs, h.recents⟩
  · intro x hx
    obtain ⟨hs, hr⟩ := h.issued x hx
    exact ⟨hs.imp_left (List.mem_append_left _), hr.imp_left (List.mem_append_left _)⟩
  · intro w hw
    rcases hw with hw | hw
    · rcases List.mem_append.mp hw with hw | hw
      · exact h.genuine w (Or.inl hw)
      · exact hnew w hw
    · exact h.genuine w (Or.inr hw)

/-- A message is sent from a chat. -/
theorem send (h : Consistent s ops) {x : Send} {vm : ChatLogVM} (hvm : s.vms[x.vm]? = some vm)
    (hs : vm.senderId = some x.message.senderId) (hr : vm.receiverId = some x.message.receiverId)
    (hid : x.message.id = s.sent.length) :
    Consistent { s with sent := s.sent ++ [x] } (ops ++ [.senderLog x, .receiverLog x]) := by
  have hkeep : ∀ w, Genuine s w → Genuine { s with sent := s.sent ++ [x] } w := fun w hw =>
    hw.mono (List.subset_append_left _ _) (fun _ ho => ho)
  have hnew : x ∈ s.sent ++ [x] := List.mem_append_right _ List.mem_cons_self
  refine ⟨⟨?_, ?_, ?_, ?_⟩, h.logs, fun path m hm => hkeep _ (h.recents path m hm)⟩
  · intro j y hj
    by_cases hlt : j < s.sent.length
    · rw [List.getElem?_append_left hlt] at hj
      exact h.id j y hj
    · rw [List.getElem?_append_right (Nat.le_of_not_lt hlt)] at hj
      obtain ⟨hj₀, rfl⟩ := List.getElem?_eq_some_iff.mp hj
      rw [List.length_singleton] at hj₀
      rw [List.getElem_singleton, hid]
      omega
  · intro y hy
    rcases List.mem_append.mp hy with hy | hy
    · exact h.vm y hy
    · obtain rfl := List.mem_singleton.mp hy
      exact ⟨vm, hvm, hs, hr⟩
  · intro y hy
    rcases List.mem_append.mp hy with hy | hy
    · obtain ⟨hsend, hrecv⟩ := h.issued y hy
      exact ⟨hsend.imp_left (List.mem_append_left _), hrecv.imp_left (List.mem_append_left _)⟩
    · obtain rfl := List.mem_singleton.mp hy
      exact ⟨Or.inl (by simp), Or.inl (by simp)⟩
  · intro w hw
    rcases hw with hw | hw
    · rcases List.mem_append.mp hw with hw | hw
      · exact hkeep w (h.genuine w (Or.inl hw))
      · rcases List.mem_pair.mp hw with rfl | rfl
        · exact hnew
        · exact hnew
    · exact hkeep w (h.genuine w (Or.inr hw))

theorem failed (h : Consistent s (pre ++ w :: post)) :
    Consistent { s with outcomes := s.outcomes ++ [(w, false)] } (pre ++ post) := by
  refine ⟨h.toTracked.answer false, ?_, ?_⟩
  · intro document m
    simpa using h.logs document m
  · intro path m hm
    exact Genuine.mono (s := s) (fun _ hx => hx) (List.subset_append_left _ _) (h.recents path m hm)

/-- A log document is set by the write that commits, or was there. -/
theorem logs_committed (h : Consistent s (pre ++ w :: post)) (document : Path × AutoId)
    (m : Message) :
    (w.commit { s with outcomes := s.outcomes ++ [(w, true)] }).logs document = some m ↔
      ∃ v, (v, true) ∈ s.outcomes ++ [(w, true)] ∧ v.logDocument = some document ∧
        v.message = m := by
  rw [commit_logs]
  by_cases hdoc : w.logDocument = some document
  · rw [if_pos hdoc]
    constructor
    · intro hm
      exact ⟨w, by simp, hdoc, Option.some.inj hm⟩
    · rintro ⟨v, hv, hdv, rfl⟩
      have hissued : Issued s (pre ++ w :: post) v := issued_answer.mp (Or.inr ⟨true, hv⟩)
      rw [h.write_inj hissued (Or.inl (by simp)) hdv hdoc]
  · rw [if_neg hdoc, h.logs]
    constructor
    · rintro ⟨v, hv, hrest⟩
      exact ⟨v, List.mem_append_left _ hv, hrest⟩
    · rintro ⟨v, hv, hdv, hm⟩
      rcases List.mem_append.mp hv with hv | hv
      · exact ⟨v, hv, hdv, hm⟩
      · obtain ⟨rfl, -⟩ := Prod.mk.inj (List.mem_singleton.mp hv)
        exact absurd hdv hdoc

/-- **A write commits.** -/
theorem committed (h : Consistent s (pre ++ w :: post)) :
    Consistent (w.commit { s with outcomes := s.outcomes ++ [(w, true)] }) (pre ++ post) := by
  have hmono : ∀ {v}, Genuine s v →
      Genuine (w.commit { s with outcomes := s.outcomes ++ [(w, true)] }) v := fun hv =>
    hv.mono (by simp) (by simp)
  refine ⟨(h.toTracked.answer true).commit w, ?_, ?_⟩
  · intro document m
    rw [commit_outcomes]
    exact h.logs_committed document m
  · intro path m hm
    rw [commit_recents] at hm
    by_cases hrecent : w = .recent path w.message
    · rw [if_pos hrecent] at hm
      obtain rfl := Option.some.inj hm
      rw [← hrecent]
      exact hmono (h.genuine w (Or.inl (by simp)))
    · rw [if_neg hrecent] at hm
      exact hmono (h.recents path m hm)

/-- The recent messages that the completion of the sender's write sets. -/
theorem persistRecentMessage_eq (h : Tracked s ops) {x : Send} (hx : x ∈ s.sent)
    {vm : ChatLogVM} (hvm : s.vms[x.vm]? = some vm) :
    persistRecentMessage vm x.message =
      [.recent (x.message.senderId, x.message.receiverId) x.message,
        .recent (x.message.receiverId, x.message.senderId) x.message] := by
  obtain ⟨vm', hvm', hs, hr⟩ := h.vm x hx
  obtain rfl := Option.some.inj (hvm.symm.trans hvm')
  simp only [persistRecentMessage, hs, hr, getChatListDocument]

/-- The handler of the sender's write, once that write has committed. -/
theorem senderSaved (h : Consistent s ops) {x : Send} (hx : x ∈ s.sent)
    (hout : (.senderLog x, true) ∈ s.outcomes) :
    Consistent (senderSaved x s).1 (ops ++ (senderSaved x s).2) := by
  obtain ⟨vm, hvm, -⟩ := h.vm x hx
  simp only [Chat.senderSaved, hvm]
  have hissue : Consistent s (ops ++ persistRecentMessage vm x.message) := by
    refine h.issue ?_
    rw [persistRecentMessage_eq h.toTracked hx hvm]
    intro w hw
    rcases List.mem_pair.mp hw with rfl | rfl
    · exact ⟨x, hx, rfl, hout, Or.inl rfl⟩
    · exact ⟨x, hx, rfl, hout, Or.inr rfl⟩
  exact hissue.of_vms (sameIds_set hvm "")

/-- **An answer keeps the documents consistent.** -/
theorem answerWrite (h : Consistent s (pre ++ w :: post)) (ok : Bool) :
    Consistent (answerWrite s w ok).1 (pre ++ post ++ (answerWrite s w ok).2) := by
  cases ok with
  | false =>
    have hfailed := h.failed
    cases w <;> simpa [Chat.answerWrite] using hfailed
  | true =>
    have hcommitted := h.committed
    cases w with
    | senderLog x =>
      have hx : x ∈ s.sent := h.genuine (.senderLog x) (Or.inl (by simp))
      exact hcommitted.senderSaved hx (by simp [Write.commit])
    | receiverLog x => simpa [Chat.answerWrite] using hcommitted
    | recent path m => simpa [Chat.answerWrite] using hcommitted

/-- **A call keeps the documents consistent.** -/
theorem call (h : Consistent s ops) {c : Call} (hcall : messaging.call s c = some (s', new)) :
    Consistent s' (ops ++ new) := by
  rcases call_cases hcall with ⟨vms, hids, rfl, rfl⟩ | ⟨x, vm, hvm, hs, hr, hid, rfl, rfl⟩
  · rw [List.append_nil]
    exact h.of_vms hids
  · exact h.send hvm hs hr hid

end Consistent

theorem consistent_empty : Consistent Messenger.empty [] := by
  refine ⟨⟨?_, ?_, ?_, ?_⟩, ?_, ?_⟩ <;> simp [Messenger.empty, Issued]

/-- **The documents stay consistent over every run.** -/
theorem consistent_run {d : Config Messenger Write} {es : List (Event Call Bool)}
    (h : messaging.machine.run ⟨Messenger.empty, []⟩ es = some d) :
    Consistent d.core d.pending := by
  refine Service.run_inv_of_step (I := Consistent) ?_ ?_ consistent_empty h
  · intro s ops x s' new hI hcall
    exact hI.call hcall
  · intro s pre w post ok s' new hI hanswer
    obtain ⟨rfl, rfl⟩ := Prod.mk.inj (Option.some.inj hanswer)
    exact hI.answerWrite ok

/-- The answer to the sender's write issues the two recent messages. -/
theorem answerWrite_senderLog {s : Messenger} {ops : List Write} (h : Tracked s ops) {x : Send}
    (hx : x ∈ s.sent) : ∃ s', answerWrite s (.senderLog x) true =
        (s', [.recent (x.message.senderId, x.message.receiverId) x.message,
          .recent (x.message.receiverId, x.message.senderId) x.message]) ∧
      s'.sent = s.sent ∧ s'.recents = s.recents := by
  obtain ⟨vm, hvm, -⟩ := h.vm x hx
  refine ⟨_, Prod.ext rfl ?_, ?_, ?_⟩
  · simp [answerWrite, senderSaved, Write.commit, hvm, Consistent.persistRecentMessage_eq h hx hvm]
  · simp [answerWrite, senderSaved, Write.commit, hvm]
  · simp [answerWrite, senderSaved, Write.commit, hvm]

theorem answerWrite_outcomes (s : Messenger) (w : Write) (ok : Bool) :
    (answerWrite s w ok).1.outcomes = s.outcomes ++ [(w, ok)] := by
  cases ok with
  | false => cases w <;> rfl
  | true =>
    cases w with
    | senderLog x =>
      show (senderSaved x _).1.outcomes = _
      unfold senderSaved
      split <;> rfl
    | receiverLog x => rfl
    | recent path m => rfl

theorem call_outcomes {c : Call} (h : messaging.call s c = some (s', new)) :
    s'.outcomes = s.outcomes := by
  rcases call_cases h with ⟨vms, -, rfl, rfl⟩ | ⟨x, vm, -, -, -, -, rfl, rfl⟩
  · rfl
  · rfl

/-! ### Messages between two users -/

/-- The answer of an event is a success. -/
def succeeds : Event Call Bool → Bool
  | .call _ => true
  | .answer _ ok => ok

/-- The message goes from one of the two users to the other. -/
def Message.between (a b : String) (m : Message) : Prop :=
  m.senderId = a ∧ m.receiverId = b ∨ m.senderId = b ∧ m.receiverId = a

/-- The message has been sent. -/
def Messenger.Sent (s : Messenger) (m : Message) : Prop := ∃ x ∈ s.sent, x.message = m

/-- The message is in the collection `Messages/path`. -/
def Messenger.InLog (s : Messenger) (path : Path) (m : Message) : Prop :=
  ∃ autoId, s.logs (path, autoId) = some m

end Subtle.Chat
