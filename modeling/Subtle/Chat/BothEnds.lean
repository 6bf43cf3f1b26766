import Subtle.Chat.Live

/-!
# Both ends of a conversation

Runs of the open chats in which no write fails, at a moment at which none is outstanding.

* `documents_perm`: the log of two users has one document for every message between them.
* `converges`: **a chat that has been given the current documents of its log, in whatever
  snapshots and however the sends and their writes were interleaved, shows the messages
  between its two users, each once**.
* `both_ends`: **new chats at both ends show the same messages in the order of their times,
  the same list if no two messages have one time**.
-/

namespace Subtle.Chat

open Subtle.Firestore Subtle.Lib

/-! ### Runs without failures -/

/-- No write fails. -/
def Succeed (es : List ChatEvent) : Prop := ∀ e ∈ Observed.coreEvents es, succeeds e = true

instance (es : List ChatEvent) : Decidable (Succeed es) :=
  inferInstanceAs (Decidable (∀ e ∈ Observed.coreEvents es, succeeds e = true))

/-- The messenger at rest after a run without failures: every write of a log document has
committed, and none has failed. -/
structure Settled (c : Config Messenger Write) : Prop where
  sound : Sound c.core c.pending
  quiet : c.pending = []
  succeeded : ∀ o ∈ c.core.outcomes, o.2 = true
  committed : ∀ x ∈ c.core.sent,
    (.senderLog x, true) ∈ c.core.outcomes ∧ (.receiverLog x, true) ∈ c.core.outcomes

section

variable {name : AutoId → String} {client : Nat → Nat} {es : List ChatEvent} {s : OpenChats}

theorem settled_run (hname : Function.Injective name) (hrun : openChats.run .empty es = some s)
    (hdelivers : openChats.Along (Observed.OnObserve (Delivers name client)) .empty es)
    (hok : Succeed es) (hquiet : s.core.pending = []) : Settled s.core := by
  have hmessaging := Machine.run_core hrun
  exact ⟨(followed_run hname hrun hdelivers).1, hquiet, outcomes_succeed hmessaging hok,
    fun x hx => logged_of_quiet hmessaging hok hquiet hx⟩

end

/-! ### The documents of a log -/

instance (a b : String) (m : Message) : Decidable (m.between a b) :=
  inferInstanceAs (Decidable (_ ∨ _))

/-- The messages sent between two users, in the order of sending. -/
def Messenger.between (s : Messenger) (a b : String) : List Message :=
  (s.sent.map Send.message).filter fun m => m.between a b

/-- The document of a message in the log that `a` keeps. -/
def Message.documentOf (name : AutoId → String) (a : String) (m : Message) : String × Fields :=
  (name (m.id, if m.senderId = a then .sender else .receiver), m.fields)

section

variable {name : AutoId → String} {client : Nat → Nat} {c : Config Messenger Write} {i : Nat}
  {a b : String} {result : QueryResult}

theorem documentOf_sender {m : Message} (h : m.senderId = a) :
    m.documentOf name a = (name (m.id, .sender), m.fields) := by
  rw [Message.documentOf, if_pos h]

theorem documentOf_receiver {m : Message} (h : m.senderId ≠ a) :
    m.documentOf name a = (name (m.id, .receiver), m.fields) := by
  rw [Message.documentOf, if_neg h]

theorem mem_between {s : Messenger} {m : Message} :
    m ∈ s.between a b ↔ ∃ x ∈ s.sent, x.message = m ∧ m.between a b := by
  simp only [Messenger.between, List.mem_filter, List.mem_map, decide_eq_true_eq, exists_and_right,
    ← and_assoc]

/-- The messages sent have different ids. -/
theorem Tracked.nodup_between {s : Messenger} {ops : List Write} (h : Tracked s ops) :
    ((s.between a b).map Message.id).Nodup := by
  have hids : (s.sent.map Send.message).map Message.id = List.range s.sent.length := by
    apply List.ext_getElem?
    intro i
    rw [List.getElem?_map, List.getElem?_map]
    cases hi : s.sent[i]? with
    | none =>
      rw [List.getElem?_eq_none (by simpa using List.getElem?_eq_none_iff.mp hi)]
      rfl
    | some x =>
      obtain ⟨hlt, -⟩ := List.getElem?_eq_some_iff.mp hi
      rw [List.getElem?_range hlt]
      exact congrArg some (h.id i x hi)
  refine List.Nodup.sublist (List.filter_sublist.map _) ?_
  rw [hids]
  exact List.nodup_range

/-- The documents of a log when no write is outstanding. -/
theorem visible_iff (h : Settled c) (hab : a ≠ b) {d : String × Fields} :
    (∃ w, Visible client c i w ∧ w.Sets name (a, b) d) ↔
      ∃ m ∈ c.core.between a b, m.documentOf name a = d := by
  constructor
  · rintro ⟨w, hvisible, hset⟩
    obtain ⟨x, hx, hmessage, hbetween⟩ := sent_of_sets h.sound (issued_of_visible hvisible) hset
    refine ⟨x.message, mem_between.mpr ⟨x, hx, rfl, hbetween⟩, ?_⟩
    obtain ⟨autoId, hdoc, rfl⟩ := hset
    cases w with
    | senderLog y =>
      obtain ⟨hpath, rfl⟩ := Prod.mk.inj (Option.some.inj hdoc)
      obtain ⟨hsender, -⟩ := Prod.mk.inj hpath
      rw [← hmessage]
      exact documentOf_sender hsender
    | receiverLog y =>
      obtain ⟨hpath, rfl⟩ := Prod.mk.inj (Option.some.inj hdoc)
      obtain ⟨-, hsender⟩ := Prod.mk.inj hpath
      have hne : y.message.senderId ≠ a := fun heq => hab (heq.symm.trans hsender)
      rw [← hmessage]
      exact documentOf_receiver hne
    | recent path m => exact absurd hdoc (by simp [Write.logDocument])
  · rintro ⟨m, hm, rfl⟩
    obtain ⟨x, hx, rfl, hbetween⟩ := mem_between.mp hm
    obtain ⟨hsender, hreceiver⟩ := h.committed x hx
    rcases hbetween with ⟨hs, hr⟩ | ⟨hs, hr⟩
    · refine ⟨.senderLog x, Or.inl hsender, (x.message.id, .sender), ?_, ?_⟩
      · rw [Write.logDocument, hs, hr, getChatLogDocument]
      · exact documentOf_sender hs
    · refine ⟨.receiverLog x, Or.inl hreceiver, (x.message.id, .receiver), ?_, ?_⟩
      · rw [Write.logDocument, hs, hr, getChatLogDocument]
      · exact documentOf_receiver (hs ▸ hab.symm)

/-- **A log has one document for every message between its two users.** -/
theorem documents_perm (hname : Function.Injective name) (h : Settled c) (hab : a ≠ b)
    (hshows : Shows name client c i (a, b) result) :
    result.documents.Perm ((c.core.between a b).map (Message.documentOf name a)) := by
  refine (List.perm_ext_iff_of_nodup result.ids_nodup.of_map ?_).mpr fun d => ?_
  · have hnodup := h.sound.toTracked.nodup_between (a := a) (b := b)
    refine List.Nodup.map_on ?_ hnodup.of_map
    intro m hm m' hm' heq
    have hid : m.id = m'.id := (Prod.mk.inj (hname (Prod.mk.inj heq).1)).1
    exact List.inj_on_of_nodup_map hnodup hm hm' hid
  · rw [hshows d, visible_iff h hab, List.mem_map]

/-! ### What the chats show -/

/-- What a message says, without the id of its document. -/
def RecentMessage.content (m : RecentMessage) : String × String × String × Int :=
  (m.senderId, m.receiverId, m.text, m.time)

def Message.content (m : Message) : String × String × String × Int :=
  (m.senderId, m.receiverId, m.text, m.time)

/-- The messages of a log are those between its two users. -/
theorem messages_perm (hname : Function.Injective name) (h : Settled c) (hab : a ≠ b)
    (hshows : Shows name client c i (a, b) result) :
    (result.messages.map RecentMessage.content).Perm
      ((c.core.between a b).map Message.content) := by
  have hdecoded := (documents_perm hname h hab hshows).filterMap
    fun d => RecentMessage.decode d.1 d.2
  have heach : ((c.core.between a b).map (Message.documentOf name a)).filterMap
      (fun d => RecentMessage.decode d.1 d.2) =
        (c.core.between a b).map fun m => m.asRead (m.documentOf name a).1 := by
    rw [List.filterMap_map]
    exact List.filterMap_eq_map_iff_forall_eq_some.mpr fun m _ => decode_fields _ m
  rw [heach] at hdecoded
  have hcontent := hdecoded.map RecentMessage.content
  rwa [List.map_map] at hcontent

/-- **A chat that has been given the current documents of its log shows the messages between
its two users, each once.** -/
theorem converges (hname : Function.Injective name) {es : List ChatEvent} {s : OpenChats}
    (hrun : openChats.run .empty es = some s)
    (hdelivers : openChats.Along (Observed.OnObserve (Delivers name client)) .empty es)
    (hok : Succeed es) (hquiet : s.core.pending = [])
    {log : OpenLog} (hlog : s.observers[i]? = some log) (hpath : log.log.listener = some (a, b))
    (hab : a ≠ b) (hcurrent : Shows name client s.core i (a, b) log.result) :
    (log.log.chatMessages.map RecentMessage.content).Perm
      ((s.core.core.between a b).map Message.content) := by
  have hsettled := settled_run hname hrun hdelivers hok hquiet
  have hfollowed := (followed_run hname hrun hdelivers).2 i log hlog _ hpath
  have hmem : ∀ m, m ∈ log.log.chatMessages ↔ m ∈ log.result.messages := by
    intro m
    refine ⟨fun hm => ?_, hfollowed.messages m⟩
    refine (hfollowed.shown m hm).resolve_right ?_
    rintro ⟨w, d, ⟨hfalse, -⟩, -⟩
    exact absurd (hsettled.succeeded _ hfalse) Bool.false_ne_true
  have hresult : (log.result.messages.map RecentMessage.id).Nodup :=
    nodup_keys_decoded RecentMessage.keyed_decode log.result.ids_nodup
  have hperm := (List.perm_ext_iff_of_nodup hfollowed.nodup.of_map hresult.of_map).mpr hmem
  exact (hperm.map _).trans (messages_perm hname hsettled hab hcurrent)

/-! ### New chats -/

/-- What a new chat shows after its first snapshot. -/
def newChat (senderId receiverId : String) (result : QueryResult) : List RecentMessage :=
  ((ChatLog.init (some senderId) (some receiverId)).handle
    (documentChanges [] result.documents)).chatMessages

theorem between_comm (s : Messenger) (a b : String) : s.between b a = s.between a b := by
  apply List.filter_congr
  intro m _
  rw [decide_eq_decide]
  exact Or.comm

/-- The messages of a query are in the order of their times. -/
theorem times_ordered (result : QueryResult) :
    (result.messages.map RecentMessage.content).Pairwise fun x y => x.2.2.2 ≤ y.2.2.2 := by
  refine List.pairwise_map.mpr (result.messages_ordered.imp ?_)
  rintro m m' (hlt | ⟨heq, -⟩)
  · exact Int.le_of_lt hlt
  · exact Int.le_of_eq heq

/-- **New chats at both ends of a conversation show the same messages, those sent between
the two users, in the order of their times**; if no two of them have one time, they show the
same list. -/
theorem both_ends (hname : Function.Injective name) {es : List ChatEvent} {s : OpenChats}
    (hrun : openChats.run .empty es = some s)
    (hdelivers : openChats.Along (Observed.OnObserve (Delivers name client)) .empty es)
    (hok : Succeed es) (hquiet : s.core.pending = []) (hab : a ≠ b)
    {j : Nat} {result' : QueryResult} (hshows : Shows name client s.core i (a, b) result)
    (hshows' : Shows name client s.core j (b, a) result') :
    ((newChat a b result).map RecentMessage.content).Perm
      ((s.core.core.between a b).map Message.content) ∧
    ((newChat a b result).map RecentMessage.content).Perm
      ((newChat b a result').map RecentMessage.content) ∧
    ((newChat a b result).map RecentMessage.content).Pairwise (fun x y => x.2.2.2 ≤ y.2.2.2) ∧
    ((∀ m ∈ s.core.core.between a b, ∀ m' ∈ s.core.core.between a b,
        m.time = m'.time → m = m') →
      (newChat a b result).map RecentMessage.content =
        (newChat b a result').map RecentMessage.content) := by
  have hsettled := settled_run hname hrun hdelivers hok hquiet
  have hperm := messages_perm hname hsettled hab hshows
  have hperm' := messages_perm hname hsettled hab.symm hshows'
  rw [between_comm] at hperm'
  rw [newChat, newChat, ChatLog.chatMessages_init, ChatLog.chatMessages_init]
  refine ⟨hperm, hperm.trans hperm'.symm, times_ordered result, fun htimes => ?_⟩
  refine (hperm.trans hperm'.symm).eq_of_pairwise ?_ (times_ordered result) (times_ordered result')
  intro x y hx hy hxy hyx
  obtain ⟨m, hm, rfl⟩ := List.mem_map.mp (hperm.mem_iff.mp hx)
  obtain ⟨m', hm', rfl⟩ := List.mem_map.mp (hperm'.mem_iff.mp hy)
  rw [htimes m hm m' hm' (Int.le_antisymm hxy hyx)]

end

/-! ### Ann and Bob -/

/-- Ann and Bob write to each other at the same time. -/
def bothWrite : List (Event Call Bool) :=
  [.call (.openChat (some "ann") (some "bob")), .call (.openChat (some "bob") (some "ann")),
    .call (.send 0 1), .call (.send 1 2)] ++ List.replicate 8 (.answer 0 true)

def annWrites : Message := ⟨0, "ann", "bob", "", 1⟩

def bobWrites : Message := ⟨1, "bob", "ann", "", 2⟩

/-- The log that one of them keeps. -/
def logOf (user : String) (hids : (annWrites.documentOf autoName user).1 ≠
    (bobWrites.documentOf autoName user).1) : QueryResult where
  documents := [annWrites.documentOf autoName user, bobWrites.documentOf autoName user]
  ids_nodup := by simpa using hids
  ordered := by
    refine List.pairwise_pair.mpr ?_
    intro s hs t ht
    obtain rfl := Option.some.inj hs
    obtain rfl := Option.some.inj ht
    exact Or.inl (by decide)

theorem delivers_messaging {name : AutoId → String} {client : Nat → Nat}
    (es : List (Event Call Bool)) (s : OpenChats) :
    openChats.Along (Observed.OnObserve (Delivers name client)) s (es.map .core) := by
  induction es generalizing s with
  | nil => trivial
  | cons e es ih => exact ⟨trivial, fun s' _ => ih s'⟩

def annsLog : QueryResult := logOf "ann" (by decide)

def bobsLog : QueryResult := logOf "bob" (by decide)

/-- Both messages are stored everywhere. -/
theorem run_bothWrite : ∃ s log, openChats.run .empty (bothWrite.map .core) = some s ∧
    s.core.pending = [] ∧ s.core.core.between "ann" "bob" = [annWrites, bobWrites] ∧
    s.observers[0]? = some log ∧ log.log.listener = some ("ann", "bob") :=
  ⟨_, _, rfl, rfl, rfl, rfl, rfl⟩

theorem shows_bothWrite {s : OpenChats}
    (hrun : openChats.run .empty (bothWrite.map .core) = some s) (i : Nat) :
    Shows autoName id s.core i ("ann", "bob") annsLog ∧
      Shows autoName id s.core i ("bob", "ann") bobsLog := by
  obtain ⟨s', -, hrun', hquiet, hbetween, -⟩ := run_bothWrite
  obtain rfl := Option.some.inj (hrun.symm.trans hrun')
  have hdelivers :
      openChats.Along (Observed.OnObserve (Delivers autoName id)) .empty (bothWrite.map .core) :=
    delivers_messaging bothWrite .empty
  have hsettled := settled_run autoName_injective hrun hdelivers (by decide) hquiet
  constructor
  · intro d
    rw [visible_iff hsettled (by decide), hbetween]
    simp [annsLog, logOf, eq_comm]
  · intro d
    rw [visible_iff hsettled (by decide), between_comm, hbetween]
    simp [bobsLog, logOf, eq_comm]

/-- Ann's chat is given both messages in one snapshot. -/
theorem converges_example : ∃ s log,
    openChats.run .empty (bothWrite.map .core ++ [.observe 0 (.snapshot annsLog)]) =
      some s ∧ s.observers[0]? = some log ∧
    (log.log.chatMessages.map RecentMessage.content).Perm
      [annWrites.content, bobWrites.content] := by
  obtain ⟨s, log, hfirst, hquiet, hbetween, hlog, hpath⟩ := run_bothWrite
  have hshows := (shows_bothWrite hfirst 0).1
  have hstep : openChats.step s (.observe 0 (.snapshot annsLog)) =
      some { s with observers := s.observers.set 0 (log.given annsLog) } := by
    simp only [openChats, Machine.observed, hlog, OpenLog.step, hpath, OpenLog.given,
      Option.bind_some, Option.map_some]
  have hrun := Machine.run_append.mpr
    ⟨s, hfirst, Machine.run_cons.mpr ⟨_, hstep, Machine.run_nil _⟩⟩
  have hdelivers : openChats.Along (Observed.OnObserve (Delivers autoName id)) .empty
      (bothWrite.map .core ++ [.observe 0 (.snapshot annsLog)]) := by
    refine Machine.along_append.mpr ⟨delivers_messaging _ _, fun s' hs' => ⟨?_, fun _ _ => trivial⟩⟩
    obtain rfl := Option.some.inj (hfirst.symm.trans hs')
    intro log' hlog' path' hpath'
    obtain rfl := Option.some.inj (hlog.symm.trans hlog')
    obtain rfl := Option.some.inj (hpath.symm.trans hpath')
    exact hshows
  obtain ⟨hlt, -⟩ := List.getElem?_eq_some_iff.mp hlog
  have hset : (s.observers.set 0 (log.given annsLog))[0]? = some (log.given annsLog) :=
    List.getElem?_set_self hlt
  have hperm := converges autoName_injective hrun hdelivers (by decide) hquiet hset hpath
    (by decide) hshows
  rw [hbetween] at hperm
  exact ⟨_, _, hrun, hset, hperm⟩

/-- Ann and Bob see their two messages in one order. -/
theorem both_ends_example : (newChat "ann" "bob" annsLog).map RecentMessage.content =
    (newChat "bob" "ann" bobsLog).map RecentMessage.content := by
  obtain ⟨s, log, hrun, hquiet, hbetween, -⟩ := run_bothWrite
  have hshows := shows_bothWrite hrun 0
  obtain ⟨-, -, -, hsame⟩ := both_ends autoName_injective hrun (delivers_messaging _ _)
    (by decide) hquiet (by decide) hshows.1 hshows.2
  refine hsame ?_
  rw [hbetween]
  decide

end Subtle.Chat
