import Subtle.Chat.Send

/-!
# The logs of a conversation

A message has one document in `Messages/sender/receiver` and one in
`Messages/receiver/sender`, each there exactly when its own write has succeeded.
The recent messages follow the sender's write only.  For a user who writes to
themselves the two collections are one, and the message is in it twice.

* `logs_message_iff`: where a message is logged.
* `logs_follow_outcomes`: **each log has a message exactly when the write to it
  succeeded, and a recent message is in the sender's log**.
* `exactlyOnce_iff`: **every message is logged once in each collection exactly when
  the two users differ or have sent nothing**.
-/

namespace Subtle.Chat

open Subtle.Lib

variable {s : Messenger} {ops : List Write} {x : Send}

/-- **Where a message is logged**: in its two documents, as their writes succeeded. -/
theorem logs_message_iff (h : Consistent s ops) (hx : x ∈ s.sent) {path : Path}
    {autoId : AutoId} : s.logs (path, autoId) = some x.message ↔
      (path = (x.message.senderId, x.message.receiverId) ∧ autoId = (x.message.id, .sender) ∧
        (.senderLog x, true) ∈ s.outcomes) ∨
      (path = (x.message.receiverId, x.message.senderId) ∧ autoId = (x.message.id, .receiver) ∧
        (.receiverLog x, true) ∈ s.outcomes) := by
  rw [h.logs]
  constructor
  · rintro ⟨w, hw, hdoc, hm⟩
    have hgenuine := h.genuine w (Or.inr ⟨true, hw⟩)
    cases w with
    | senderLog y =>
      obtain rfl := h.send_inj hgenuine hx (congrArg Message.id hm)
      obtain ⟨hpath, hid⟩ := Prod.mk.inj (Option.some.inj hdoc)
      exact Or.inl ⟨hpath.symm, hid.symm, hw⟩
    | receiverLog y =>
      obtain rfl := h.send_inj hgenuine hx (congrArg Message.id hm)
      obtain ⟨hpath, hid⟩ := Prod.mk.inj (Option.some.inj hdoc)
      exact Or.inr ⟨hpath.symm, hid.symm, hw⟩
    | recent path m => exact absurd hdoc (by simp [Write.logDocument])
  · rintro (⟨rfl, rfl, hw⟩ | ⟨rfl, rfl, hw⟩)
    · exact ⟨.senderLog x, hw, rfl, rfl⟩
    · exact ⟨.receiverLog x, hw, rfl, rfl⟩

theorem logs_sender_iff (h : Consistent s ops) (hx : x ∈ s.sent)
    (hne : x.message.senderId ≠ x.message.receiverId) {autoId : AutoId} :
    s.logs ((x.message.senderId, x.message.receiverId), autoId) = some x.message ↔
      autoId = (x.message.id, .sender) ∧ (.senderLog x, true) ∈ s.outcomes := by
  rw [logs_message_iff h hx]
  simp [hne]

theorem logs_receiver_iff (h : Consistent s ops) (hx : x ∈ s.sent)
    (hne : x.message.senderId ≠ x.message.receiverId) {autoId : AutoId} :
    s.logs ((x.message.receiverId, x.message.senderId), autoId) = some x.message ↔
      autoId = (x.message.id, .receiver) ∧ (.receiverLog x, true) ∈ s.outcomes := by
  rw [logs_message_iff h hx]
  simp [Ne.symm hne]

theorem inLog_sender_iff (h : Consistent s ops) (hx : x ∈ s.sent)
    (hne : x.message.senderId ≠ x.message.receiverId) :
    s.InLog (x.message.senderId, x.message.receiverId) x.message ↔
      (.senderLog x, true) ∈ s.outcomes := by
  simp only [Messenger.InLog, logs_sender_iff h hx hne, exists_eq_left]

theorem inLog_receiver_iff (h : Consistent s ops) (hx : x ∈ s.sent)
    (hne : x.message.senderId ≠ x.message.receiverId) :
    s.InLog (x.message.receiverId, x.message.senderId) x.message ↔
      (.receiverLog x, true) ∈ s.outcomes := by
  simp only [Messenger.InLog, logs_receiver_iff h hx hne, exists_eq_left]

/-- A recent message is one whose write to the sender's log succeeded. -/
theorem senderLog_of_recent (h : Consistent s ops) (hx : x ∈ s.sent) {path : Path}
    (hrecent : s.recents path = some x.message) : (.senderLog x, true) ∈ s.outcomes := by
  obtain ⟨y, hy, hm, hout, -⟩ := h.recents path x.message hrecent
  obtain rfl := h.send_inj hy hx (congrArg Message.id hm)
  exact hout

/-! ### Failing writes -/

/-- **Each log has a message exactly when the write to it succeeded**, and a recent
message is in the sender's log. -/
theorem logs_follow_outcomes {es : List (Event Call Bool)} {d : Config Messenger Write}
    (h : messaging.machine.run ⟨Messenger.empty, []⟩ es = some d) (hquiet : d.pending = [])
    {x : Send} (hx : x ∈ d.core.sent) (hne : x.message.senderId ≠ x.message.receiverId) :
    (∃ ok, (.senderLog x, ok) ∈ d.core.outcomes) ∧
    (∃ ok, (.receiverLog x, ok) ∈ d.core.outcomes) ∧
    (d.core.InLog (x.message.senderId, x.message.receiverId) x.message ↔
      (.senderLog x, true) ∈ d.core.outcomes) ∧
    (d.core.InLog (x.message.receiverId, x.message.senderId) x.message ↔
      (.receiverLog x, true) ∈ d.core.outcomes) ∧
    ∀ path, d.core.recents path = some x.message →
      d.core.InLog (x.message.senderId, x.message.receiverId) x.message := by
  have hc := consistent_run h
  obtain ⟨hsender, hreceiver⟩ := hc.issued x hx
  rw [hquiet] at hsender hreceiver
  refine ⟨hsender.resolve_left List.not_mem_nil, hreceiver.resolve_left List.not_mem_nil,
    inLog_sender_iff hc hx hne, inLog_receiver_iff hc hx hne, ?_⟩
  intro path hrecent
  rw [inLog_sender_iff hc hx hne]
  exact senderLog_of_recent hc hx hrecent

/-- The receiver's write of Ann's message to Bob fails. -/
def receiverFails : List (Event Call Bool) :=
  [.call (.openChat (some "ann") (some "bob")), .call (.send 0 1), .answer 0 true,
    .answer 0 false, .answer 0 true, .answer 0 true]

theorem logs_follow_outcomes_example : ∃ d,
    messaging.machine.run ⟨Messenger.empty, []⟩ receiverFails = some d ∧
      ¬ d.core.InLog ("bob", "ann") ⟨0, "ann", "bob", "", 1⟩ := by
  have hrun : ∃ d, messaging.machine.run ⟨Messenger.empty, []⟩ receiverFails = some d ∧
      d.pending = [] ∧ ⟨0, ⟨0, "ann", "bob", "", 1⟩⟩ ∈ d.core.sent ∧
      (.receiverLog ⟨0, ⟨0, "ann", "bob", "", 1⟩⟩, true) ∉ d.core.outcomes :=
    ⟨_, rfl, rfl, by decide, by decide⟩
  obtain ⟨d, hrun, hquiet, hx, hfails⟩ := hrun
  obtain ⟨-, -, -, hlog, -⟩ := logs_follow_outcomes hrun hquiet hx (by decide)
  exact ⟨d, hrun, fun hin => hfails (hlog.mp hin)⟩

/-- The message stays in Ann's log and in both recent documents, and Bob's log never
gets it. -/
theorem logs_split : ¬ ∀ (es : List (Event Call Bool)) (d : Config Messenger Write) (x : Send),
    messaging.machine.run ⟨Messenger.empty, []⟩ es = some d → d.pending = [] →
      x ∈ d.core.sent → x.message.senderId ≠ x.message.receiverId →
        (d.core.InLog (x.message.senderId, x.message.receiverId) x.message ↔
          d.core.InLog (x.message.receiverId, x.message.senderId) x.message) ∧
        ∀ path, d.core.recents path = some x.message →
          d.core.InLog (x.message.senderId, x.message.receiverId) x.message ∧
          d.core.InLog (x.message.receiverId, x.message.senderId) x.message := by
  intro h
  have hrun : ∃ d, messaging.machine.run ⟨Messenger.empty, []⟩ receiverFails = some d ∧
      d.pending = [] ∧ ⟨0, ⟨0, "ann", "bob", "", 1⟩⟩ ∈ d.core.sent ∧
      (.senderLog ⟨0, ⟨0, "ann", "bob", "", 1⟩⟩, true) ∈ d.core.outcomes ∧
      (.receiverLog ⟨0, ⟨0, "ann", "bob", "", 1⟩⟩, true) ∉ d.core.outcomes :=
    ⟨_, rfl, rfl, by decide, by decide, by decide⟩
  obtain ⟨d, hrun, hquiet, hx, hok, hfails⟩ := hrun
  have hc := consistent_run hrun
  have hsplit := (h _ d _ hrun hquiet hx (by decide)).1
  rw [inLog_sender_iff hc hx (by decide), inLog_receiver_iff hc hx (by decide)] at hsplit
  exact hfails (hsplit.mp hok)

/-! ### Exactly once -/

/-- Every message between the users is in one document of each collection, and
nothing else is there. -/
def ExactlyOnce (s : Messenger) (a b : String) : Prop :=
  (∀ x ∈ s.sent, x.message.between a b →
    (∃! autoId, s.logs ((a, b), autoId) = some x.message) ∧
      ∃! autoId, s.logs ((b, a), autoId) = some x.message) ∧
  ∀ path autoId m, path = (a, b) ∨ path = (b, a) → s.logs (path, autoId) = some m →
    s.Sent m ∧ m.between a b

theorem outcomes_succeed {es : List (Event Call Bool)} {d : Config Messenger Write}
    (h : messaging.machine.run ⟨Messenger.empty, []⟩ es = some d)
    (hok : ∀ e ∈ es, succeeds e = true) : ∀ o ∈ d.core.outcomes, o.2 = true := by
  refine Service.run_inv (I := fun s _ => ∀ o ∈ s.outcomes, o.2 = true) ?_ ?_ ?_
    (Machine.along_of_mem hok _) h
  · intro s ops x s' new hI _ hcall
    rwa [call_outcomes hcall]
  · intro s pre w post ok s' new hI hsucceeds hanswer
    have heq : answerWrite s w ok = (s', new) := Option.some.inj hanswer
    have hout : s'.outcomes = s.outcomes ++ [(w, ok)] := by
      rw [← answerWrite_outcomes s w ok, heq]
    intro o ho
    rw [hout] at ho
    rcases List.mem_append.mp ho with ho | ho
    · exact hI o ho
    · obtain rfl := List.mem_singleton.mp ho
      exact hsucceeds
  · exact List.forall_mem_nil _

/-- A message in a collection of two users is one between them. -/
theorem between_of_logs (h : Consistent s ops) {a b : String} {path : Path} {autoId : AutoId}
    {m : Message} (hpath : path = (a, b) ∨ path = (b, a))
    (hlog : s.logs (path, autoId) = some m) : s.Sent m ∧ m.between a b := by
  obtain ⟨w, hw, hdoc, rfl⟩ := (h.logs _ _).mp hlog
  have hgenuine := h.genuine w (Or.inr ⟨true, hw⟩)
  cases w with
  | senderLog y =>
    refine ⟨⟨y, hgenuine, rfl⟩, ?_⟩
    obtain ⟨hp, -⟩ := Prod.mk.inj (Option.some.inj hdoc)
    rcases hpath with rfl | rfl <;> obtain ⟨hs, hr⟩ := Prod.mk.inj hp
    · exact Or.inl ⟨hs, hr⟩
    · exact Or.inr ⟨hs, hr⟩
  | receiverLog y =>
    refine ⟨⟨y, hgenuine, rfl⟩, ?_⟩
    obtain ⟨hp, -⟩ := Prod.mk.inj (Option.some.inj hdoc)
    rcases hpath with rfl | rfl <;> obtain ⟨hr, hs⟩ := Prod.mk.inj hp
    · exact Or.inr ⟨hs, hr⟩
    · exact Or.inl ⟨hs, hr⟩
  | recent path m => exact absurd hdoc (by simp [Write.logDocument])

/-- In a run without failures both log writes of every message end up committed. -/
theorem logged_of_quiet {es : List (Event Call Bool)} {d : Config Messenger Write}
    (h : messaging.machine.run ⟨Messenger.empty, []⟩ es = some d)
    (hok : ∀ e ∈ es, succeeds e = true) (hquiet : d.pending = []) (hx : x ∈ d.core.sent) :
    (.senderLog x, true) ∈ d.core.outcomes ∧ (.receiverLog x, true) ∈ d.core.outcomes := by
  have hall := outcomes_succeed h hok
  obtain ⟨hsender, hreceiver⟩ := (consistent_run h).issued x hx
  rw [hquiet] at hsender hreceiver
  obtain ⟨ok, hout⟩ := hsender.resolve_left List.not_mem_nil
  obtain ⟨ok', hout'⟩ := hreceiver.resolve_left List.not_mem_nil
  obtain rfl : ok = true := hall _ hout
  obtain rfl : ok' = true := hall _ hout'
  exact ⟨hout, hout'⟩

/-- Between different users a message has one document in each of its collections. -/
theorem existsUnique_logs (h : Consistent s ops) (hx : x ∈ s.sent)
    (hne : x.message.senderId ≠ x.message.receiverId) (hsender : (.senderLog x, true) ∈ s.outcomes)
    (hreceiver : (.receiverLog x, true) ∈ s.outcomes) :
    (∃! autoId, s.logs ((x.message.senderId, x.message.receiverId), autoId) = some x.message) ∧
      ∃! autoId, s.logs ((x.message.receiverId, x.message.senderId), autoId) =
        some x.message := by
  constructor
  · exact ⟨_, (logs_sender_iff h hx hne).mpr ⟨rfl, hsender⟩,
      fun _ hlog => ((logs_sender_iff h hx hne).mp hlog).1⟩
  · exact ⟨_, (logs_receiver_iff h hx hne).mpr ⟨rfl, hreceiver⟩,
      fun _ hlog => ((logs_receiver_iff h hx hne).mp hlog).1⟩

/-- A message of a user to themselves has two documents in the one collection. -/
theorem logged_twice (h : Consistent s ops) (hx : x ∈ s.sent)
    (hself : x.message.receiverId = x.message.senderId)
    (hsender : (.senderLog x, true) ∈ s.outcomes)
    (hreceiver : (.receiverLog x, true) ∈ s.outcomes) :
    ¬ ∃! autoId, s.logs ((x.message.senderId, x.message.senderId), autoId) = some x.message := by
  intro honce
  have hsame := honce.unique
    ((logs_message_iff h hx).mpr (Or.inl ⟨by rw [hself], rfl, hsender⟩))
    ((logs_message_iff h hx).mpr (Or.inr ⟨by rw [hself], rfl, hreceiver⟩))
  exact absurd (Prod.mk.inj hsame).2 (by decide)

/-- **Every message is logged once in each collection exactly when the two users differ
or have sent nothing.** -/
theorem exactlyOnce_iff {es : List (Event Call Bool)} {d : Config Messenger Write} {a b : String}
    (h : messaging.machine.run ⟨Messenger.empty, []⟩ es = some d)
    (hok : ∀ e ∈ es, succeeds e = true) (hquiet : d.pending = []) :
    ExactlyOnce d.core a b ↔ a ≠ b ∨ ∀ x ∈ d.core.sent, ¬ x.message.between a b := by
  have hc := consistent_run h
  constructor
  · rintro ⟨honce, -⟩
    by_contra hnot
    obtain ⟨hab, x, hx, hbetween⟩ : a = b ∧ ∃ x ∈ d.core.sent, x.message.between a b := by
      simpa using hnot
    subst hab
    obtain ⟨rfl, hself⟩ : x.message.senderId = a ∧ x.message.receiverId = a := by
      rcases hbetween with hb | hb <;> exact ⟨hb.1, hb.2⟩
    obtain ⟨hsender, hreceiver⟩ := logged_of_quiet h hok hquiet hx
    exact logged_twice hc hx hself hsender hreceiver (honce x hx hbetween).1
  · intro hcond
    refine ⟨?_, fun path autoId m => between_of_logs hc⟩
    intro x hx hbetween
    have hab : a ≠ b := hcond.resolve_right fun hnone => hnone x hx hbetween
    obtain ⟨hsender, hreceiver⟩ := logged_of_quiet h hok hquiet hx
    rcases hbetween with ⟨rfl, rfl⟩ | ⟨rfl, rfl⟩
    · exact existsUnique_logs hc hx hab hsender hreceiver
    · exact (existsUnique_logs hc hx hab.symm hsender hreceiver).symm

/-- A user opens a chat with another and sends one message. -/
def oneMessage (user receiver : String) : List (Event Call Bool) :=
  [.call (.openChat (some user) (some receiver)), .call (.send 0 1), .answer 0 true,
    .answer 0 true, .answer 0 true, .answer 0 true]

theorem exactlyOnce_iff_example : ∃ d,
    messaging.machine.run ⟨Messenger.empty, []⟩ (oneMessage "ann" "bob") = some d ∧
      d.core.sent.length = 1 ∧ ExactlyOnce d.core "ann" "bob" := by
  have hrun : ∃ d, messaging.machine.run ⟨Messenger.empty, []⟩ (oneMessage "ann" "bob") = some d ∧
      d.core.sent.length = 1 ∧ d.pending = [] := ⟨_, rfl, rfl, rfl⟩
  obtain ⟨d, hrun, hsent, hquiet⟩ := hrun
  exact ⟨d, hrun, hsent, (exactlyOnce_iff hrun (by decide) hquiet).mpr (Or.inl (by decide))⟩

/-- A poster writes to themselves from their own post. -/
theorem self_chat_logged_twice : ¬ ∀ (es : List (Event Call Bool)) (d : Config Messenger Write)
    (a b : String), messaging.machine.run ⟨Messenger.empty, []⟩ es = some d →
      (∀ e ∈ es, succeeds e = true) → d.pending = [] → ExactlyOnce d.core a b := by
  intro h
  have honce := (h (oneMessage "ann" "ann") _ "ann" "ann" rfl (by decide) rfl).1
    ⟨0, ⟨0, "ann", "ann", "", 1⟩⟩ (by decide) (Or.inl ⟨rfl, rfl⟩)
  have hsame : ((0, Side.sender) : AutoId) = (0, .receiver) :=
    honce.1.unique (by decide) (by decide)
  exact absurd hsame (by decide)

end Subtle.Chat
