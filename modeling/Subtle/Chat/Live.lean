import Subtle.Chat.ChatLog
import Subtle.Chat.Logs
import Subtle.Lib.Observed

/-!
# Open chats over the store

The chats of all users, each with the listener of its log, over one store.  A listener is
given the documents of its collection as they are, and with them the writes of its own
client that the backend has not answered yet: an app sees what it writes at once.  A write
that is rejected disappears from the documents again, and `ChatLogVM` overlooks that.

* `openChats`: sends, answers to writes and snapshots in any order.
* `Followed`: what an open chat has to do with the last snapshot of its log.
* `shown_once`: **an open chat shows every document of its last snapshot, nothing twice, and
  beyond them only messages of its own client whose write was rejected**.
-/

namespace Subtle.Chat

open Subtle.Firestore Subtle.Lib

/-! ### Documents -/

/-- The document that `setData(from: message)` writes; the id is not a field of it. -/
def Message.fields (m : Message) : Fields :=
  [("senderId", .string m.senderId), ("receiverId", .string m.receiverId),
    ("text", .string m.text), ("time", .timestamp m.time)]

/-- The message, read back from a document. -/
def Message.asRead (m : Message) (id : String) : RecentMessage :=
  ⟨id, m.senderId, m.receiverId, m.text, m.time⟩

/-- **A message is read back as it was written.** -/
theorem decode_fields (id : String) (m : Message) :
    RecentMessage.decode id m.fields = some (m.asRead id) := rfl

/-! ### The system -/

/-- A chat comes with its log. -/
def opened : Event Call Bool → List OpenLog
  | .call (.openChat currentUser receiverId) => [.start currentUser receiverId]
  | _ => []

/-- The messenger, and the logs that its chats show. -/
abbrev OpenChats := Observed (Config Messenger Write) OpenLog

def OpenChats.empty : OpenChats := ⟨⟨Messenger.empty, []⟩, []⟩

/-- A step of the messenger, or a snapshot for the listener of a chat. -/
abbrev ChatEvent := Observed.Event (Event Call Bool) ListenerEvent

def openChats : Machine OpenChats ChatEvent := messaging.machine.observed opened OpenLog.step

/-- The chat whose send issued the write of a log document. -/
def Write.chat : Write → Option Nat
  | senderLog x | receiverLog x => some x.vm
  | recent _ _ => none

section

variable (name : AutoId → String) (client : Nat → Nat)

/-- The write sets the document `d` of the collection `Messages/path`. -/
def Write.Sets (path : Path) (w : Write) (d : String × Fields) : Prop :=
  ∃ autoId, w.logDocument = some (path, autoId) ∧ d = (name autoId, w.message.fields)

/-- The write was issued by the client in which the chat at `i` is open. -/
def Write.Own (i : Nat) (w : Write) : Prop := w.chat.map client = some (client i)

/-- What a listener of the chat at `i` is given: committed writes, and those of its own
client that are outstanding. -/
def Visible (c : Config Messenger Write) (i : Nat) (w : Write) : Prop :=
  (w, true) ∈ c.core.outcomes ∨ w ∈ c.pending ∧ w.Own client i

/-- A write of its own client was rejected. -/
def Rejected (c : Config Messenger Write) (i : Nat) (w : Write) : Prop :=
  (w, false) ∈ c.core.outcomes ∧ w.Own client i

/-- The documents of the collection, as a listener of the chat at `i` is given them. -/
def Shows (c : Config Messenger Write) (i : Nat) (path : Path) (result : QueryResult) : Prop :=
  ∀ d, d ∈ result.documents ↔ ∃ w, Visible client c i w ∧ w.Sets name path d

/-- A snapshot gives the documents as they are. -/
def Delivers (c : Config Messenger Write) (i : Nat) (log : OpenLog) : ListenerEvent → Prop
  | .snapshot result => ∀ path ∈ log.log.listener, Shows name client c i path result
  | .error => True

end

/-! ### Writes of the logs are issued once -/

/-- No write of a log document is outstanding or answered twice. -/
def Once (s : Messenger) (ops : List Write) : Prop :=
  ((ops ++ s.outcomes.map Prod.fst).filter fun w => w.logDocument.isSome).Nodup

variable {s s' : Messenger} {ops new pre post : List Write} {w : Write}

theorem mem_issued : w ∈ ops ++ s.outcomes.map Prod.fst ↔ Issued s ops w := by
  simp [Issued]

/-- An answer issues no write of a log document. -/
theorem logDocument_answerWrite (s : Messenger) (w : Write) (ok : Bool) :
    ∀ v ∈ (answerWrite s w ok).2, v.logDocument = none := by
  have hrecent : ∀ (vm : ChatLogVM) (m : Message), ∀ v ∈ persistRecentMessage vm m,
      v.logDocument = none := by
    intro vm m v hv
    unfold persistRecentMessage at hv
    split at hv
    · rcases List.mem_pair.mp hv with rfl | rfl <;> rfl
    · exact absurd hv List.not_mem_nil
  intro v hv
  cases ok with
  | false => cases w <;> exact absurd hv List.not_mem_nil
  | true =>
    cases w with
    | senderLog x =>
      change v ∈ (senderSaved x _).2 at hv
      unfold senderSaved at hv
      split at hv
      · exact hrecent _ _ v hv
      · exact absurd hv List.not_mem_nil
    | receiverLog x => exact absurd hv List.not_mem_nil
    | recent path m => exact absurd hv List.not_mem_nil

theorem once_call (hc : Consistent s ops) (h : Once s ops) {c : Call}
    (hcall : messaging.call s c = some (s', new)) : Once s' (ops ++ new) := by
  rcases call_cases hcall with ⟨vms, -, rfl, rfl⟩ | ⟨x, vm, -, -, -, hid, rfl, rfl⟩
  · rwa [List.append_nil]
  · -- the two writes of a new message are not those of an earlier one
    have hnew : ∀ w, Issued s ops w → w ≠ .senderLog x ∧ w ≠ .receiverLog x := by
      intro w hw
      have hgenuine := hc.genuine w hw
      have hfresh : x ∉ s.sent := by
        intro hx
        obtain ⟨i, hi⟩ := List.mem_iff_getElem?.mp hx
        obtain ⟨hlt, -⟩ := List.getElem?_eq_some_iff.mp hi
        have := hc.id i x hi
        omega
      constructor
      · rintro rfl
        exact hfresh hgenuine
      · rintro rfl
        exact hfresh hgenuine
    have hperm : (ops ++ [Write.senderLog x, Write.receiverLog x] ++
        s.outcomes.map Prod.fst).Perm
          ([Write.senderLog x, Write.receiverLog x] ++ (ops ++ s.outcomes.map Prod.fst)) := by
      rw [List.append_assoc, ← List.append_assoc _ ops]
      rw [← List.append_assoc]
      exact List.perm_append_comm.append_right _
    refine ((hperm.filter _).nodup_iff).mpr ?_
    rw [List.filter_append]
    refine List.nodup_append'.mpr ⟨?_, h, ?_⟩
    · exact List.Nodup.filter _ (by simp)
    · intro w hw hw'
      obtain ⟨hne, hne'⟩ := hnew w (mem_issued.mp (List.mem_filter.mp hw').1)
      rcases List.mem_pair.mp (List.mem_filter.mp hw).1 with rfl | rfl
      · exact hne rfl
      · exact hne' rfl

theorem once_answer (h : Once s (pre ++ w :: post)) (ok : Bool) :
    Once (answerWrite s w ok).1 (pre ++ post ++ (answerWrite s w ok).2) := by
  have hnone : (answerWrite s w ok).2.filter (fun v => v.logDocument.isSome) = [] := by
    refine List.filter_eq_nil_iff.mpr fun v hv => ?_
    rw [logDocument_answerWrite s w ok v hv]
    exact Bool.false_ne_true
  have hperm : (pre ++ w :: post ++ s.outcomes.map Prod.fst).Perm
      (pre ++ post ++ (s.outcomes ++ [(w, ok)]).map Prod.fst) := by
    have hmove : (w :: post ++ s.outcomes.map Prod.fst).Perm
        (post ++ (s.outcomes ++ [(w, ok)]).map Prod.fst) := by
      rw [List.map_append, ← List.append_assoc]
      exact (List.perm_append_singleton w _).symm
    rw [List.append_assoc, List.append_assoc]
    exact hmove.append_left pre
  have hfilter := hperm.filter fun v => v.logDocument.isSome
  rw [Once, answerWrite_outcomes, List.filter_append, List.filter_append, hnone, List.append_nil,
    ← List.filter_append]
  exact hfilter.nodup_iff.mp h

/-- The messenger, with every write of a log document issued once. -/
structure Sound (s : Messenger) (ops : List Write) : Prop extends Consistent s ops where
  once : Once s ops

theorem sound_empty : Sound Messenger.empty [] :=
  ⟨consistent_empty, by simp [Once, Messenger.empty]⟩

theorem Sound.call (h : Sound s ops) {c : Call} (hcall : messaging.call s c = some (s', new)) :
    Sound s' (ops ++ new) :=
  ⟨h.toConsistent.call hcall, once_call h.toConsistent h.once hcall⟩

theorem Sound.answer (h : Sound s (pre ++ w :: post)) {ok : Bool}
    (hanswer : messaging.answer s w ok = some (s', new)) : Sound s' (pre ++ post ++ new) := by
  obtain ⟨rfl, rfl⟩ := Prod.mk.inj (Option.some.inj hanswer)
  exact ⟨h.toConsistent.answerWrite ok, once_answer h.once ok⟩

/-- An answered write of a log document is not outstanding, and has no other answer. -/
theorem Sound.not_rejected (h : Sound s ops) (hdoc : w.logDocument.isSome)
    (hw : (w, true) ∈ s.outcomes ∨ w ∈ ops) : (w, false) ∉ s.outcomes := by
  intro hfalse
  have hnodup := h.once
  rw [Once, List.filter_append] at hnodup
  obtain ⟨-, houtcomes, hdisjoint⟩ := List.nodup_append'.mp hnodup
  have hanswered : w ∈ (s.outcomes.map Prod.fst).filter fun w => w.logDocument.isSome :=
    List.mem_filter.mpr ⟨List.mem_map.mpr ⟨_, hfalse, rfl⟩, hdoc⟩
  rcases hw with htrue | hpending
  · -- both answers would be among the outcomes
    have hsplit : (s.outcomes.map Prod.fst).filter (fun w => w.logDocument.isSome) =
        (s.outcomes.filter fun o => o.1.logDocument.isSome).map Prod.fst := List.filter_map
    rw [hsplit] at houtcomes
    have hsame := List.inj_on_of_nodup_map houtcomes (List.mem_filter.mpr ⟨htrue, hdoc⟩)
      (List.mem_filter.mpr ⟨hfalse, hdoc⟩) rfl
    exact absurd (Prod.mk.inj hsame).2 (by decide)
  · exact hdisjoint (List.mem_filter.mpr ⟨hpending, hdoc⟩) hanswered

/-! ### What a step keeps -/

theorem answerWrite_sent (s : Messenger) (w : Write) (ok : Bool) :
    (answerWrite s w ok).1.sent = s.sent := by
  cases ok with
  | false => cases w <;> rfl
  | true =>
    cases w with
    | senderLog x =>
      show (senderSaved x _).1.sent = _
      unfold senderSaved
      split <;> rfl
    | receiverLog x => rfl
    | recent path m => rfl

/-- Messages stay sent, answers stay given, and an outstanding write stays so until it is
answered. -/
structure Keeps (c c' : Config Messenger Write) : Prop where
  sent : c.core.sent ⊆ c'.core.sent
  outcomes : c.core.outcomes ⊆ c'.core.outcomes
  pending : ∀ w ∈ c.pending, w ∈ c'.pending ∨ ∃ ok, (w, ok) ∈ c'.core.outcomes

variable {c c' : Config Messenger Write} {e : Event Call Bool}

theorem keeps_step (hstep : messaging.machine.step c e = some c') : Keeps c c' := by
  rcases Service.step_cases hstep with ⟨x, s', new, rfl, hx, rfl⟩ |
    ⟨pre, w, post, ok, s', new, rfl, hp, hx, rfl⟩
  · refine ⟨?_, ?_, fun w hw => Or.inl (List.mem_append_left _ hw)⟩
    · rcases call_cases hx with ⟨vms, -, rfl, -⟩ | ⟨y, vm, -, -, -, -, rfl, -⟩
      · exact List.Subset.refl _
      · exact List.subset_append_left _ _
    · rw [call_outcomes hx]
      exact List.Subset.refl _
  · have heq : answerWrite c.core w ok = (s', new) := Option.some.inj hx
    have hout := answerWrite_outcomes c.core w ok
    have hsent := answerWrite_sent c.core w ok
    rw [heq] at hout hsent
    refine ⟨fun y hy => hsent ▸ hy, fun o ho => hout ▸ List.mem_append_left _ ho, ?_⟩
    intro v hv
    rw [hp] at hv
    rcases Service.mem_pending_iff.mp hv with rfl | hv
    · exact Or.inr ⟨ok, hout ▸ List.mem_append_right _ List.mem_cons_self⟩
    · exact Or.inl (List.mem_append_left _ hv)

theorem Sound.step (h : Sound c.core c.pending) (hstep : messaging.machine.step c e = some c') :
    Sound c'.core c'.pending := by
  rcases Service.step_cases hstep with ⟨x, s', new, rfl, hx, rfl⟩ |
    ⟨pre, w, post, ok, s', new, rfl, hp, hx, rfl⟩
  · exact h.call hx
  · rw [hp] at h
    exact h.answer hx

/-! ### What a chat shows -/

section

variable {name : AutoId → String} {client : Nat → Nat} {i : Nat} {path : Path} {log : OpenLog}
  {result : QueryResult} {d : String × Fields} {v : Write}

theorem shows_iff {outcomes : List (Write × Bool)} (hout : c.core.outcomes = outcomes)
    (hpending : c.pending = ops) : Shows name client c i path result ↔
      ∀ d, d ∈ result.documents ↔ ∃ w,
        ((w, true) ∈ outcomes ∨ w ∈ ops ∧ w.Own client i) ∧ w.Sets name path d := by
  subst hout hpending
  exact Iff.rfl

/-- The chat at `i` has followed the documents of its log up to the last snapshot. -/
structure Followed (name : AutoId → String) (client : Nat → Nat) (c : Config Messenger Write)
    (i : Nat) (path : Path) (log : OpenLog) : Prop where
  documents : ∀ d ∈ log.result.documents,
    ∃ w, (Visible client c i w ∨ Rejected client c i w) ∧ w.Sets name path d
  nodup : (log.log.chatMessages.map RecentMessage.id).Nodup
  messages : ∀ m ∈ log.result.messages, m ∈ log.log.chatMessages
  shown : ∀ m ∈ log.log.chatMessages, m ∈ log.result.messages ∨
    ∃ w d, Rejected client c i w ∧ w.Sets name path d ∧ m = w.message.asRead d.1

theorem issued_of_visible (h : Visible client c i w) : Issued c.core c.pending w := by
  rcases h with htrue | ⟨hpending, -⟩
  · exact Or.inr ⟨true, htrue⟩
  · exact Or.inl hpending

theorem issued_of_rejected (h : Rejected client c i w) : Issued c.core c.pending w :=
  Or.inr ⟨false, h.1⟩

theorem issued_of_seen (h : Visible client c i w ∨ Rejected client c i w) :
    Issued c.core c.pending w := h.elim issued_of_visible issued_of_rejected

/-- A write that is visible has not been rejected. -/
theorem not_rejected_of_visible (hc : Sound c.core c.pending) (h : Visible client c i w)
    (hset : w.Sets name path d) : ¬ Rejected client c i w := by
  obtain ⟨autoId, hdoc, -⟩ := hset
  rintro ⟨hfalse, -⟩
  exact hc.not_rejected (hdoc ▸ rfl) (h.imp_right And.left) hfalse

/-- Documents with one id are set by one write. -/
theorem write_unique (hname : Function.Injective name) (hc : Sound c.core c.pending)
    (hv : Issued c.core c.pending v) (hw : Issued c.core c.pending w) {d' : String × Fields}
    (hset : v.Sets name path d) (hset' : w.Sets name path d') (hid : d.1 = d'.1) : v = w := by
  obtain ⟨autoId, hdoc, rfl⟩ := hset
  obtain ⟨autoId', hdoc', rfl⟩ := hset'
  obtain rfl : autoId = autoId' := hname hid
  exact hc.write_inj hv hw hdoc hdoc'

/-- The document of a write decodes to its message. -/
theorem eq_asRead (hset : w.Sets name path d) {m : RecentMessage}
    (hm : RecentMessage.decode d.1 d.2 = some m) : m = w.message.asRead d.1 := by
  obtain ⟨autoId, -, rfl⟩ := hset
  exact (Option.some.inj ((decode_fields _ _).symm.trans hm)).symm

theorem followed_start (senderId receiverId : Option String) :
    Followed name client c i path (.start senderId receiverId) := by
  have hnone : (OpenLog.start senderId receiverId).log.chatMessages = [] :=
    OpenLog.current_start senderId receiverId
  refine ⟨List.forall_mem_nil _, ?_, List.forall_mem_nil _, ?_⟩
  · rw [hnone]
    exact List.nodup_nil
  · rw [hnone]
    exact List.forall_mem_nil _

/-- What was visible is still, unless it has been rejected. -/
theorem seen_mono (hkeep : Keeps c c') (h : Visible client c i w ∨ Rejected client c i w) :
    Visible client c' i w ∨ Rejected client c' i w := by
  rcases h with (htrue | ⟨hpending, hown⟩) | ⟨hfalse, hown⟩
  · exact Or.inl (Or.inl (hkeep.outcomes htrue))
  · rcases hkeep.pending w hpending with hpending | ⟨ok, hanswered⟩
    · exact Or.inl (Or.inr ⟨hpending, hown⟩)
    · cases ok with
      | true => exact Or.inl (Or.inl hanswered)
      | false => exact Or.inr ⟨hanswered, hown⟩
  · exact Or.inr ⟨hkeep.outcomes hfalse, hown⟩

theorem Followed.mono (h : Followed name client c i path log) (hkeep : Keeps c c') :
    Followed name client c' i path log := by
  refine ⟨?_, h.nodup, h.messages, ?_⟩
  · intro d hd
    obtain ⟨w, hseen, hset⟩ := h.documents d hd
    exact ⟨w, seen_mono hkeep hseen, hset⟩
  · intro m hm
    refine (h.shown m hm).imp_right ?_
    rintro ⟨w, d, ⟨hfalse, hown⟩, hset, heq⟩
    exact ⟨w, d, ⟨hkeep.outcomes hfalse, hown⟩, hset, heq⟩

/-- The log after a snapshot. -/
def OpenLog.given (log : OpenLog) (result : QueryResult) : OpenLog :=
  ⟨log.log.handle (documentChanges log.result.documents result.documents), result⟩

theorem chatMessages_given (log : OpenLog) (result : QueryResult) :
    (log.given result).log.chatMessages = log.log.chatMessages ++
      decoded RecentMessage.decode (addedDocuments log.result.documents result.documents) := by
  rw [OpenLog.given, ChatLog.chatMessages_handle, decodedAdded_documentChanges]

/-- An added document has not been shown. -/
theorem Followed.id_not_shown (h : Followed name client c i path log)
    (hname : Function.Injective name) (hc : Sound c.core c.pending)
    (hshows : Shows name client c i path result)
    (hd : d ∈ addedDocuments log.result.documents result.documents) :
    d.1 ∉ log.log.chatMessages.map RecentMessage.id := by
  obtain ⟨hnew, hold⟩ := mem_addedDocuments.mp hd
  obtain ⟨v, hvisible, hset⟩ := (hshows d).mp hnew
  intro hin
  obtain ⟨m, hm, hid⟩ := List.mem_map.mp hin
  rcases h.shown m hm with hlast | ⟨w, d', hrejected, hset', rfl⟩
  · obtain ⟨d', hd', -, hkey⟩ := exists_of_mem_decoded RecentMessage.keyed_decode hlast
    exact hold (List.mem_map.mpr ⟨d', hd', hkey.symm.trans hid⟩)
  · obtain rfl := write_unique hname hc (issued_of_visible hvisible)
      (issued_of_rejected hrejected) hset hset' hid.symm
    exact not_rejected_of_visible hc hvisible hset hrejected

/-- **A snapshot of the documents as they are.** -/
theorem Followed.snapshot (h : Followed name client c i path log)
    (hname : Function.Injective name) (hc : Sound c.core c.pending)
    (hshows : Shows name client c i path result) :
    Followed name client c i path (log.given result) := by
  have hadded : ∀ m ∈ decoded RecentMessage.decode
      (addedDocuments log.result.documents result.documents), m ∈ result.messages := by
    intro m hm
    obtain ⟨d, hd, hdecode⟩ := mem_decoded.mp hm
    exact mem_decoded.mpr ⟨d, (mem_addedDocuments.mp hd).1, hdecode⟩
  constructor
  case documents =>
    intro d hd
    obtain ⟨w, hvisible, hset⟩ := (hshows d).mp hd
    exact ⟨w, Or.inl hvisible, hset⟩
  case nodup =>
    rw [chatMessages_given, List.map_append]
    refine List.nodup_append'.mpr ⟨h.nodup, ?_, ?_⟩
    · exact nodup_keys_decoded RecentMessage.keyed_decode
        (result.ids_nodup.sublist (List.filter_sublist.map _))
    · intro id hid hid'
      obtain ⟨m, hm, rfl⟩ := List.mem_map.mp hid'
      obtain ⟨d, hd, -, hkey⟩ := exists_of_mem_decoded RecentMessage.keyed_decode hm
      exact h.id_not_shown hname hc hshows hd (hkey ▸ hid)
  case messages =>
    intro m hm
    rw [chatMessages_given]
    obtain ⟨d, hd, hdecode⟩ := mem_decoded.mp hm
    by_cases hold : d.1 ∈ log.result.documents.map Prod.fst
    · -- the document has been given before, by the same write
      obtain ⟨d', hd', hid⟩ := List.mem_map.mp hold
      obtain ⟨w, hvisible, hset⟩ := (hshows d).mp hd
      obtain ⟨v, hseen, hset'⟩ := h.documents d' hd'
      obtain rfl := write_unique hname hc (issued_of_seen hseen) (issued_of_visible hvisible)
        hset' hset hid
      obtain ⟨autoId, hdoc, rfl⟩ := hset
      obtain ⟨autoId', hdoc', rfl⟩ := hset'
      obtain rfl : autoId' = autoId := hname hid
      exact List.mem_append_left _ (h.messages m (mem_decoded.mpr ⟨_, hd', hdecode⟩))
    · exact List.mem_append_right _
        (mem_decoded.mpr ⟨d, mem_addedDocuments.mpr ⟨hd, hold⟩, hdecode⟩)
  case shown =>
    intro m hm
    rw [chatMessages_given] at hm
    rcases List.mem_append.mp hm with hm | hm
    · rcases h.shown m hm with hlast | hrejected
      · obtain ⟨d, hd, hdecode⟩ := mem_decoded.mp hlast
        obtain ⟨w, hvisible | hrejected, hset⟩ := h.documents d hd
        · exact Or.inl (mem_decoded.mpr ⟨d, (hshows d).mpr ⟨w, hvisible, hset⟩, hdecode⟩)
        · exact Or.inr ⟨w, d, hrejected, hset, eq_asRead hset hdecode⟩
      · exact Or.inr hrejected
    · exact Or.inl (hadded m hm)

/-! ### Whole runs -/

theorem step_log {log' : OpenLog} {o : ListenerEvent} (h : log.step o = some log') :
    log' = log ∨ ∃ path result, o = .snapshot result ∧ log.log.listener = some path ∧
      log' = log.given result := by
  cases o with
  | error => exact Or.inl (Option.some.inj h).symm
  | snapshot result =>
    obtain ⟨path, hpath, rfl⟩ := Option.map_eq_some_iff.mp h
    exact Or.inr ⟨path, result, rfl, hpath, rfl⟩

/-- **All open chats have followed their logs**, after every run. -/
theorem followed_run (hname : Function.Injective name) {es : List ChatEvent} {s : OpenChats}
    (hrun : openChats.run .empty es = some s)
    (hdelivers : openChats.Along (Observed.OnObserve (Delivers name client)) .empty es) :
    Sound s.core.core s.core.pending ∧ ∀ (i : Nat) log, s.observers[i]? = some log →
      ∀ path ∈ log.log.listener, Followed name client s.core i path log := by
  refine Machine.observed_inv (I := fun c => Sound c.core c.pending)
    (J := fun c i log => ∀ path ∈ log.log.listener, Followed name client c i path log)
    ?_ ?_ ?_ ?_ sound_empty ?_ hdelivers hrun
  · intro c e c' hc hstep
    exact hc.step hstep
  · intro c e c' i log _ hstep h path hpath
    exact (h path hpath).mono (keeps_step hstep)
  · intro c e c' i _ _ log hlog path _
    unfold opened at hlog
    split at hlog
    · obtain rfl := List.mem_singleton.mp hlog
      exact followed_start _ _
    · exact absurd hlog List.not_mem_nil
  · intro c i log o log' hc h hP hstep path hpath
    rcases step_log hstep with rfl | ⟨path', result, rfl, -, rfl⟩
    · exact h path hpath
    · exact (h path hpath).snapshot hname hc (hP path hpath)
  · intro i log hlog
    exact absurd hlog (by simp [OpenChats.empty])

/-- A message with a document in the collection of two users was sent between them. -/
theorem sent_of_sets (hc : Sound c.core c.pending) (hw : Issued c.core c.pending w)
    (hset : w.Sets name path d) : ∃ x ∈ c.core.sent, w.message = x.message ∧
      x.message.between path.1 path.2 := by
  obtain ⟨autoId, hdoc, -⟩ := hset
  have hgenuine := hc.genuine w hw
  cases w with
  | senderLog x =>
    obtain ⟨rfl, -⟩ := Prod.mk.inj (Option.some.inj hdoc)
    exact ⟨x, hgenuine, rfl, Or.inl ⟨rfl, rfl⟩⟩
  | receiverLog x =>
    obtain ⟨rfl, -⟩ := Prod.mk.inj (Option.some.inj hdoc)
    exact ⟨x, hgenuine, rfl, Or.inr ⟨rfl, rfl⟩⟩
  | recent path m => exact absurd hdoc (by simp [Write.logDocument])

/-- **An open chat shows every document of its last snapshot, nothing twice, and beyond them
only messages of its own client whose write was rejected**; all of them were sent between
its two users. -/
theorem shown_once (hname : Function.Injective name) {es : List ChatEvent} {s : OpenChats}
    (hrun : openChats.run .empty es = some s)
    (hdelivers : openChats.Along (Observed.OnObserve (Delivers name client)) .empty es)
    (hlog : s.observers[i]? = some log) (hpath : log.log.listener = some path) :
    (log.log.chatMessages.map RecentMessage.id).Nodup ∧
    (∀ m ∈ log.result.messages, m ∈ log.log.chatMessages) ∧
    ∀ m ∈ log.log.chatMessages, ∃ w, ∃ x ∈ s.core.core.sent, w.message = x.message ∧
      x.message.between path.1 path.2 ∧ m = x.message.asRead m.id ∧
      (m ∈ log.result.messages ∨ Rejected client s.core i w) := by
  obtain ⟨hsound, hlogs⟩ := followed_run hname hrun hdelivers
  have hfollowed := hlogs i log hlog path hpath
  refine ⟨hfollowed.nodup, hfollowed.messages, ?_⟩
  intro m hm
  rcases hfollowed.shown m hm with hlast | ⟨w, d, hrejected, hset, rfl⟩
  · obtain ⟨d, hd, hdecode⟩ := mem_decoded.mp hlast
    obtain ⟨w, hseen, hset⟩ := hfollowed.documents d hd
    obtain ⟨x, hx, hmessage, hbetween⟩ := sent_of_sets hsound (issued_of_seen hseen) hset
    refine ⟨w, x, hx, hmessage, hbetween, ?_, Or.inl hlast⟩
    rw [eq_asRead hset hdecode, hmessage]
    rfl
  · obtain ⟨x, hx, hmessage, hbetween⟩ :=
      sent_of_sets hsound (issued_of_rejected hrejected) hset
    refine ⟨w, x, hx, hmessage, hbetween, ?_, Or.inr hrejected⟩
    rw [hmessage]
    rfl

end

/-- Ids that tell all documents apart. -/
def autoName : AutoId → String
  | (n, .sender) => String.ofList ('s' :: List.replicate n 'x')
  | (n, .receiver) => String.ofList ('r' :: List.replicate n 'x')

theorem autoName_injective : Function.Injective autoName := by
  have hlength : ∀ {n n' : Nat}, List.replicate n 'x' = List.replicate n' 'x' → n = n' := by
    intro n n' h
    simpa using congrArg List.length h
  rintro ⟨n, side⟩ ⟨n', side'⟩ h
  cases side <;> cases side' <;> have hlist := String.ofList_inj.mp h
  · rw [hlength (List.cons.inj hlist).2]
  · exact absurd (List.cons.inj hlist).1 (by decide)
  · exact absurd (List.cons.inj hlist).1 (by decide)
  · rw [hlength (List.cons.inj hlist).2]

def annsSend : Send := ⟨0, ⟨0, "ann", "bob", "", 1⟩⟩

/-- The log of Ann and Bob while Ann's message is on its way. -/
def onItsWay : QueryResult where
  documents := [(autoName (0, .sender), annsSend.message.fields)]
  ids_nodup := List.nodup_singleton _
  ordered := List.pairwise_singleton _ _

/-- The write of Ann's message to her log is rejected, and its document disappears. -/
def takenBack : List ChatEvent :=
  [.core (.call (.openChat (some "ann") (some "bob"))), .core (.call (.send 0 1)),
    .observe 0 (.snapshot onItsWay), .core (.answer 0 false), .observe 0 (.snapshot .empty)]

theorem not_sets_receiverLog {d : String × Fields} :
    ¬ (Write.receiverLog annsSend).Sets autoName ("ann", "bob") d := by
  rintro ⟨autoId, hdoc, -⟩
  exact absurd (Prod.mk.inj (Option.some.inj hdoc)).1 (by decide)

theorem shows_onItsWay (d : String × Fields) : d ∈ onItsWay.documents ↔ ∃ w,
    ((w, true) ∈ ([] : List (Write × Bool)) ∨
      w ∈ [Write.senderLog annsSend, Write.receiverLog annsSend] ∧ w.Own id 0) ∧
    w.Sets autoName ("ann", "bob") d := by
  constructor
  · intro hd
    obtain rfl := List.mem_singleton.mp hd
    exact ⟨.senderLog annsSend, Or.inr ⟨List.mem_cons_self, rfl⟩, (0, .sender), rfl, rfl⟩
  · rintro ⟨w, hnone | ⟨hw, -⟩, hset⟩
    · exact absurd hnone List.not_mem_nil
    · rcases List.mem_pair.mp hw with rfl | rfl
      · obtain ⟨autoId, hdoc, rfl⟩ := hset
        obtain ⟨-, rfl⟩ := Prod.mk.inj (Option.some.inj hdoc)
        exact List.mem_singleton_self _
      · exact absurd hset not_sets_receiverLog

theorem shows_rejected (d : String × Fields) : d ∈ QueryResult.empty.documents ↔ ∃ w,
    ((w, true) ∈ [(Write.senderLog annsSend, false)] ∨
      w ∈ [Write.receiverLog annsSend] ∧ w.Own id 0) ∧
    w.Sets autoName ("ann", "bob") d := by
  refine iff_of_false List.not_mem_nil ?_
  rintro ⟨w, htrue | ⟨hw, -⟩, hset⟩
  · exact absurd (Prod.mk.inj (List.mem_singleton.mp htrue)).2 (by decide)
  · obtain rfl := List.mem_singleton.mp hw
    exact not_sets_receiverLog hset

theorem delivers_takenBack :
    openChats.Along (Observed.OnObserve (Delivers autoName id)) .empty takenBack := by
  refine ⟨trivial, fun s hs => ?_⟩
  obtain rfl := Option.some.inj hs
  refine ⟨trivial, fun s hs => ?_⟩
  obtain rfl := Option.some.inj hs
  refine ⟨?_, fun s hs => ?_⟩
  · intro log hlog path hpath
    obtain rfl := Option.some.inj hlog
    obtain rfl := Option.some.inj hpath
    exact (shows_iff rfl rfl).mpr shows_onItsWay
  obtain rfl := Option.some.inj hs
  refine ⟨trivial, fun s hs => ?_⟩
  obtain rfl := Option.some.inj hs
  refine ⟨?_, fun s hs => trivial⟩
  intro log hlog path hpath
  obtain rfl := Option.some.inj hlog
  obtain rfl := Option.some.inj hpath
  exact (shows_iff rfl rfl).mpr shows_rejected

/-- Ann's chat still shows the message. -/
theorem shown_once_example : ∃ s log, openChats.run .empty takenBack = some s ∧
    s.observers[0]? = some log ∧ log.result.messages = [] ∧ log.log.chatMessages.length = 1 ∧
    ∀ m ∈ log.log.chatMessages, ∃ w, Rejected id s.core 0 w := by
  have hrun : ∃ s log, openChats.run .empty takenBack = some s ∧ s.observers[0]? = some log ∧
      log.log.listener = some ("ann", "bob") ∧ log.result.messages = [] ∧
      log.log.chatMessages.length = 1 := ⟨_, _, rfl, rfl, rfl, rfl, rfl⟩
  obtain ⟨s, log, hrun, hlog, hpath, hempty, hlength⟩ := hrun
  refine ⟨s, log, hrun, hlog, hempty, hlength, fun m hm => ?_⟩
  obtain ⟨-, -, hall⟩ := shown_once autoName_injective hrun delivers_takenBack hlog hpath
  obtain ⟨w, x, -, -, -, -, hlast | hrejected⟩ := hall m hm
  · rw [hempty] at hlast
    exact absurd hlast List.not_mem_nil
  · exact ⟨w, hrejected⟩

end Subtle.Chat
