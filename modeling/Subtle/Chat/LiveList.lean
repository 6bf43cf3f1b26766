import Subtle.Chat.ChatList
import Subtle.Chat.BothEnds
import Subtle.Lib.Retention

/-!
# The chat lists over the store

The chat lists of any users beside the messenger.  A listener is given, for each partner, a
message that was written to the document of the two, one that its own client has written and
the backend has not answered included.  `ChatListView` opens the chat with whoever of sender
and receiver is not the user of the list.

* `listed`: **every entry is a message sent between the user and the partner that the id of
  its document names, the entry opens the chat with that partner, and no partner has two**.
* `list_converges`: **at rest, after a run without failures, a list that has been given the
  current documents has an entry for every user with whom a message was exchanged, and no
  other**.
-/

namespace Subtle.Chat

open Subtle.Firestore Subtle.Lib

/-! ### The system -/

abbrev OpenLists := Observed (Config Messenger Write) Listening

/-- The lists of these users, before anything is sent.  A list that is opened later is one
whose first snapshot comes later. -/
def OpenLists.start (senders : List (Option String)) : OpenLists :=
  ⟨⟨Messenger.empty, []⟩, senders.map Listening.start⟩

abbrev ListEvent := Observed.Event (Event Call Bool) ListenerEvent

def openLists : Machine OpenLists ListEvent :=
  messaging.machine.observed (fun _ => []) Listening.step

/-- A message has been written to the document of the two users. -/
def Wrote (c : Config Messenger Write) (user partner : String) (m : Message) : Prop :=
  Issued c.core c.pending (.recent (getChatListDocument user partner) m)

/-- Every document of the result is what was written to it. -/
def Gives (c : Config Messenger Write) (user : String) (result : QueryResult) : Prop :=
  ∀ d ∈ result.documents, ∃ m, Wrote c user d.1 m ∧ d.2 = m.fields

/-- A snapshot gives documents as they were written. -/
def GivesWritten (c : Config Messenger Write) (_i : Nat) (list : Listening) :
    ListenerEvent → Prop
  | .snapshot result => ∀ user ∈ list.vm.listener, Gives c user result
  | .error => True

/-- The documents of `Recents/user/Messages` as they are stored. -/
def Stores (s : Messenger) (user : String) (result : QueryResult) : Prop :=
  ∀ d, d ∈ result.documents ↔
    ∃ m, s.recents (getChatListDocument user d.1) = some m ∧ d.2 = m.fields

/-- The partner in a message, for the user of a list. -/
def ChatListVM.idForRetrieval (id : String) (message : RecentMessage) : String :=
  if message.senderId ≠ id then message.senderId else message.receiverId

/-! ### One list -/

variable {c c' : Config Messenger Write} {e : Event Call Bool} {user partner : String}
  {list : Listening} {m : Message} {result : QueryResult}

theorem wrote_mono (hkeep : Keeps c c') (h : Wrote c user partner m) :
    Wrote c' user partner m := by
  rcases h with hpending | ⟨ok, hanswered⟩
  · exact hkeep.pending _ hpending
  · exact Or.inr ⟨ok, hkeep.outcomes hanswered⟩

/-- What is written to the document of two users is a message sent between them. -/
theorem sent_of_wrote (hc : Consistent c.core c.pending) (h : Wrote c user partner m) :
    ∃ x ∈ c.core.sent, x.message = m ∧ x.message.between user partner := by
  obtain ⟨x, hx, rfl, -, hpath⟩ := hc.genuine _ h
  refine ⟨x, hx, rfl, ?_⟩
  rcases hpath with hpath | hpath <;> obtain ⟨rfl, rfl⟩ := Prod.mk.inj hpath
  · exact Or.inl ⟨rfl, rfl⟩
  · exact Or.inr ⟨rfl, rfl⟩

/-- The list of a user has followed the documents of its query. -/
structure Listed (c : Config Messenger Write) (user : String) (list : Listening) : Prop where
  retains : Retains RecentMessage.decode RecentMessage.id list.vm.recentMessages
    list.result.documents
  documents : Gives c user list.result
  entries : ∀ b ∈ list.vm.recentMessages, ∃ m, Wrote c user b.id m ∧ b = m.asRead b.id

theorem listed_start (sender : Option String) : Listed c user (.start sender) :=
  ⟨retains_nil, List.forall_mem_nil _, List.forall_mem_nil _⟩

theorem Listed.mono (h : Listed c user list) (hkeep : Keeps c c') : Listed c' user list := by
  refine ⟨h.retains, ?_, ?_⟩
  · intro d hd
    obtain ⟨m, hm, heq⟩ := h.documents d hd
    exact ⟨m, wrote_mono hkeep hm, heq⟩
  · intro b hb
    obtain ⟨m, hm, heq⟩ := h.entries b hb
    exact ⟨m, wrote_mono hkeep hm, heq⟩

/-- What the documents of a result decode to. -/
theorem Gives.entry (h : Gives c user result) {b : RecentMessage} (hb : b ∈ result.messages) :
    ∃ m, Wrote c user b.id m ∧ b = m.asRead b.id := by
  obtain ⟨d, hd, hdecode, hid⟩ := exists_of_mem_decoded RecentMessage.keyed_decode hb
  obtain ⟨m, hm, heq⟩ := h d hd
  rw [heq, decode_fields] at hdecode
  obtain rfl := Option.some.inj hdecode
  exact ⟨m, hm, rfl⟩

/-- **A snapshot of written documents.** -/
theorem Listed.snapshot (h : Listed c user list) (hgives : Gives c user result) :
    Listed c user ⟨list.vm.handle (documentChanges list.result.documents result.documents),
      result⟩ := by
  constructor
  case retains =>
    rw [ChatListVM.recentMessages_handle]
    exact h.retains.follow RecentMessage.keyed_decode list.result.ids_nodup result.ids_nodup
  case documents => exact hgives
  case entries =>
    intro b hb
    rw [ChatListVM.recentMessages_handle] at hb
    rcases mem_follow_cases RecentMessage.keyed_decode list.result.ids_nodup result.ids_nodup
      h.retains.nodup hb with hb | hb | hb
    · exact h.entries b hb
    · exact h.documents.entry hb
    · exact hgives.entry hb

/-- The lists of all users, after every run. -/
theorem listed_run {senders : List (Option String)} {es : List ListEvent} {s : OpenLists}
    (hrun : openLists.run (.start senders) es = some s)
    (hgives : openLists.Along (Observed.OnObserve GivesWritten) (.start senders) es) :
    Consistent s.core.core s.core.pending ∧ ∀ (i : Nat) list, s.observers[i]? = some list →
      ∀ user ∈ list.vm.listener, Listed s.core user list := by
  have hinv := Machine.observed_inv (I := fun c => Sound c.core c.pending)
    (J := fun c _ list => ∀ user ∈ list.vm.listener, Listed c user list)
    ?_ ?_ ?_ ?_ sound_empty ?_ hgives hrun
  · exact ⟨hinv.1.toConsistent, hinv.2⟩
  · intro c e c' hc hstep
    exact hc.step hstep
  · intro c e c' i list _ hstep h user huser
    exact (h user huser).mono (keeps_step hstep)
  · intro c e c' i _ _ list hlist
    exact absurd hlist List.not_mem_nil
  · intro c i list o list' _ h hP hstep user huser
    cases o with
    | error =>
      obtain rfl := Option.some.inj hstep
      exact h user huser
    | snapshot result =>
      obtain ⟨user', -, rfl⟩ := Option.map_eq_some_iff.mp hstep
      exact (h user huser).snapshot (hP user huser)
  · intro i list hlist user _
    obtain ⟨sender, -, rfl⟩ := List.mem_map.mp (List.mem_of_getElem? hlist)
    exact listed_start sender

/-- The partner in a message between a user and another is the other. -/
theorem idForRetrieval_asRead (h : m.between user partner) (id : String) :
    ChatListVM.idForRetrieval user (m.asRead id) = partner := by
  show (if m.senderId ≠ user then m.senderId else m.receiverId) = partner
  rcases h with ⟨hs, hr⟩ | ⟨hs, hr⟩
  · rw [if_neg (not_not_intro hs), hr]
  · by_cases hself : partner = user
    · rw [if_neg (not_not_intro (hs.trans hself)), hr, hself]
    · rw [if_pos fun heq => hself (hs.symm.trans heq), hs]

/-- **Every entry is a message sent between the user and the partner that the id of its
document names**, it opens the chat with that partner, no partner has two entries, and
the last snapshot is shown as it is. -/
theorem listed {senders : List (Option String)} {es : List ListEvent} {s : OpenLists}
    (hrun : openLists.run (.start senders) es = some s)
    (hgives : openLists.Along (Observed.OnObserve GivesWritten) (.start senders) es) {i : Nat}
    (hlist : s.observers[i]? = some list) (huser : list.vm.listener = some user) :
    (∀ b ∈ list.vm.recentMessages, ChatListVM.idForRetrieval user b = b.id ∧
      ∃ x ∈ s.core.core.sent, x.message.between user b.id ∧ b = x.message.asRead b.id) ∧
    (list.vm.recentMessages.map (ChatListVM.idForRetrieval user)).Nodup ∧
    ∀ b ∈ list.result.messages, b ∈ list.vm.recentMessages := by
  obtain ⟨hc, hlists⟩ := listed_run hrun hgives
  have hlisted := hlists i list hlist user huser
  have hentry : ∀ b ∈ list.vm.recentMessages, ChatListVM.idForRetrieval user b = b.id ∧
      ∃ x ∈ s.core.core.sent, x.message.between user b.id ∧ b = x.message.asRead b.id := by
    intro b hb
    obtain ⟨m, hwrote, heq⟩ := hlisted.entries b hb
    obtain ⟨x, hx, rfl, hbetween⟩ := sent_of_wrote hc hwrote
    refine ⟨?_, x, hx, hbetween, heq⟩
    rw [heq]
    exact idForRetrieval_asRead hbetween b.id
  refine ⟨hentry, ?_, hlisted.retains.current⟩
  rw [List.map_congr_left fun b hb => (hentry b hb).1]
  exact hlisted.retains.nodup

/-! ### At rest -/

/-- A message still has to reach the sender's log, or both recent documents will get it or
have got one. -/
def Reached (s : Messenger) (ops : List Write) : Prop :=
  ∀ x ∈ s.sent, .senderLog x ∈ ops ∨
    ∀ path, path = (x.message.senderId, x.message.receiverId) ∨
      path = (x.message.receiverId, x.message.senderId) →
        .recent path x.message ∈ ops ∨ s.recents path ≠ none

variable {s s' : Messenger} {ops new pre post : List Write} {w : Write}

/-- A recent document that is there stays. -/
theorem recents_answerWrite (hc : Consistent s (pre ++ w :: post)) {path : Path}
    (h : s.recents path ≠ none) : (answerWrite s w true).1.recents path ≠ none := by
  cases w with
  | senderLog x =>
    have hx : x ∈ s.sent := hc.genuine (.senderLog x) (Or.inl (by simp))
    obtain ⟨s', heq, -, hrec⟩ := answerWrite_senderLog hc.toTracked hx
    rw [heq]
    show s'.recents path ≠ none
    rwa [hrec]
  | receiverLog x => exact h
  | recent path' m =>
    show Function.update s.recents path' (some m) path ≠ none
    by_cases hpath : path = path'
    · rw [hpath, Function.update_self]
      exact Option.some_ne_none m
    · rwa [Function.update_of_ne hpath]

theorem recents_answerWrite_recent (s : Messenger) (path : Path) (m : Message) :
    (answerWrite s (.recent path m) true).1.recents path ≠ none := by
  show Function.update s.recents path (some m) path ≠ none
  rw [Function.update_self]
  exact Option.some_ne_none m

theorem reached_call (h : Reached s ops) {x : Call}
    (hcall : messaging.call s x = some (s', new)) : Reached s' (ops ++ new) := by
  have hkeep : ∀ y ∈ s.sent, .senderLog y ∈ ops ++ new ∨
      ∀ path, path = (y.message.senderId, y.message.receiverId) ∨
        path = (y.message.receiverId, y.message.senderId) →
          .recent path y.message ∈ ops ++ new ∨ s.recents path ≠ none := by
    intro y hy
    refine (h y hy).imp (List.mem_append_left _) fun hdocs path hpath => ?_
    exact (hdocs path hpath).imp_left (List.mem_append_left _)
  rcases call_cases hcall with ⟨vms, -, rfl, rfl⟩ | ⟨y, vm, -, -, -, -, rfl, rfl⟩
  · exact hkeep
  · intro z hz
    rcases List.mem_append.mp hz with hz | hz
    · exact hkeep z hz
    · obtain rfl := List.mem_singleton.mp hz
      exact Or.inl (by simp)

theorem reached_answer (hc : Consistent s (pre ++ w :: post)) (h : Reached s (pre ++ w :: post)) :
    Reached (answerWrite s w true).1 (pre ++ post ++ (answerWrite s w true).2) := by
  intro x hx
  rw [answerWrite_sent] at hx
  rcases h x hx with hpending | hdocs
  · rcases Service.mem_pending_iff.mp hpending with rfl | hpending
    · -- the handler sets both recent documents
      obtain ⟨s', heq, -, -⟩ := answerWrite_senderLog hc.toTracked hx
      rw [heq]
      refine Or.inr fun path hpath => Or.inl (List.mem_append_right _ ?_)
      rcases hpath with rfl | rfl <;> simp
    · exact Or.inl (List.mem_append_left _ hpending)
  · refine Or.inr fun path hpath => ?_
    rcases hdocs path hpath with hpending | hsome
    · rcases Service.mem_pending_iff.mp hpending with rfl | hpending
      · exact Or.inr (recents_answerWrite_recent s path x.message)
      · exact Or.inl (List.mem_append_left _ hpending)
    · exact Or.inr (recents_answerWrite hc hsome)

/-- Without failures every message sent has been answered by both recent documents, once
nothing is outstanding. -/
theorem recents_of_sent {es : List (Event Call Bool)} {d : Config Messenger Write}
    (hrun : messaging.machine.run ⟨Messenger.empty, []⟩ es = some d)
    (hok : ∀ e ∈ es, succeeds e = true) (hquiet : d.pending = []) {x : Send}
    (hx : x ∈ d.core.sent) (hbetween : x.message.between user partner) :
    d.core.recents (user, partner) ≠ none := by
  have hinv : Consistent d.core d.pending ∧ Reached d.core d.pending := by
    refine Service.run_inv (I := fun s ops => Consistent s ops ∧ Reached s ops) ?_ ?_ ?_
      (Machine.along_of_mem hok _) hrun
    · intro s ops x s' new hI _ hcall
      exact ⟨hI.1.call hcall, reached_call hI.2 hcall⟩
    · rintro s pre w post ok s' new hI (rfl : ok = true) hanswer
      obtain ⟨rfl, rfl⟩ := Prod.mk.inj (Option.some.inj hanswer)
      exact ⟨hI.1.answerWrite true, reached_answer hI.1 hI.2⟩
    · exact ⟨consistent_empty, by simp [Reached, Messenger.empty]⟩
  have hreached := hinv.2 x hx
  rw [hquiet] at hreached
  refine (hreached.resolve_left List.not_mem_nil _ ?_).resolve_left List.not_mem_nil
  rcases hbetween with ⟨rfl, rfl⟩ | ⟨rfl, rfl⟩
  · exact Or.inl rfl
  · exact Or.inr rfl

/-- **At rest, after a run without failures, a list that has been given the current documents
shows these, and has an entry for a user exactly if a message was exchanged with them.** -/
theorem list_converges {senders : List (Option String)} {es : List ListEvent} {s : OpenLists}
    (hrun : openLists.run (.start senders) es = some s)
    (hgives : openLists.Along (Observed.OnObserve GivesWritten) (.start senders) es)
    (hok : ∀ e ∈ Observed.coreEvents es, succeeds e = true) (hquiet : s.core.pending = []) {i : Nat}
    (hlist : s.observers[i]? = some list) (huser : list.vm.listener = some user)
    (hcurrent : Stores s.core.core user list.result) :
    list.vm.recentMessages.Perm list.result.messages ∧
    ∀ partner, partner ∈ list.vm.recentMessages.map (ChatListVM.idForRetrieval user) ↔
      ∃ x ∈ s.core.core.sent, x.message.between user partner := by
  obtain ⟨hentries, -, hshown⟩ := listed hrun hgives hlist huser
  have hlisted := (listed_run hrun hgives).2 i list hlist user huser
  have hstored : ∀ x ∈ s.core.core.sent, ∀ partner, x.message.between user partner →
      ∃ m, (partner, Message.fields m) ∈ list.result.documents := by
    intro x hx partner hbetween
    obtain ⟨m, hm⟩ := Option.ne_none_iff_exists'.mp
      (recents_of_sent (Machine.run_core hrun) hok hquiet hx hbetween)
    exact ⟨m, (hcurrent _).mpr ⟨m, hm, rfl⟩⟩
  have hmem : ∀ b, b ∈ list.vm.recentMessages ↔ b ∈ list.result.messages := by
    intro b
    refine hlisted.retains.mem_iff RecentMessage.keyed_decode ?_ ?_
    · intro d hd
      obtain ⟨m, -, heq⟩ := (hcurrent d).mp hd
      rw [heq, decode_fields]
      exact Option.some_ne_none _
    · intro b hb
      obtain ⟨-, x, hx, hbetween, -⟩ := hentries b hb
      obtain ⟨m, hm⟩ := hstored x hx b.id hbetween
      exact List.mem_map.mpr ⟨_, hm, rfl⟩
  constructor
  · have hresult := nodup_keys_decoded RecentMessage.keyed_decode list.result.ids_nodup
    exact (List.perm_ext_iff_of_nodup hlisted.retains.nodup.of_map hresult.of_map).mpr hmem
  · intro partner
    constructor
    · intro hpartner
      obtain ⟨b, hb, rfl⟩ := List.mem_map.mp hpartner
      obtain ⟨hid, x, hx, hbetween, -⟩ := hentries b hb
      exact ⟨x, hx, hid ▸ hbetween⟩
    · rintro ⟨x, hx, hbetween⟩
      obtain ⟨m, hm⟩ := hstored x hx partner hbetween
      have hb := hshown _ (mem_decoded.mpr ⟨_, hm, decode_fields partner m⟩)
      exact List.mem_map.mpr ⟨_, hb, (hentries _ hb).1⟩

/-! ### Ann's list -/

/-- The recent documents of Ann after her message to Bob. -/
def annsRecents : QueryResult where
  documents := [("bob", Message.fields ⟨0, "ann", "bob", "", 1⟩)]
  ids_nodup := List.nodup_singleton _
  ordered := List.pairwise_singleton _ _

/-- Ann writes to Bob, and her list is given the document once everything is stored. -/
def annWritesToBob : List ListEvent :=
  (oneMessage "ann" "bob").map .core ++ [.observe 0 (.snapshot annsRecents)]

def annsMessage : Message := ⟨0, "ann", "bob", "", 1⟩

theorem run_annWritesToBob : ∃ s list,
    openLists.run (.start [some "ann"]) annWritesToBob = some s ∧ s.core.pending = [] ∧
    s.observers[0]? = some list ∧ list.vm.listener = some "ann" ∧ list.result = annsRecents ∧
    s.core.core.recents = Function.update (Function.update (fun _ => none) ("ann", "bob")
      (some annsMessage)) ("bob", "ann") (some annsMessage) :=
  ⟨_, _, rfl, rfl, rfl, rfl, rfl, rfl⟩

/-- The snapshot comes after all writes. -/
theorem gives_annWritesToBob :
    openLists.Along (Observed.OnObserve GivesWritten) (.start [some "ann"]) annWritesToBob := by
  have hquiet : ∀ (es : List (Event Call Bool)) (s : OpenLists),
      openLists.Along (Observed.OnObserve GivesWritten) s (es.map .core) := by
    intro es
    induction es with
    | nil => exact fun s => trivial
    | cons e es ih => exact fun s => ⟨trivial, fun s' _ => ih s'⟩
  refine Machine.along_append.mpr ⟨hquiet _ _, fun s hs => ⟨?_, fun _ _ => trivial⟩⟩
  obtain rfl := Option.some.inj hs
  intro list hlist user huser d hd
  obtain rfl := Option.some.inj hlist
  obtain rfl := Option.some.inj huser
  obtain rfl := List.mem_singleton.mp hd
  exact ⟨annsMessage, Or.inr ⟨true, by decide⟩, rfl⟩

theorem listed_example : ∃ s list,
    openLists.run (.start [some "ann"]) annWritesToBob = some s ∧ s.observers[0]? = some list ∧
    ∀ b ∈ list.vm.recentMessages, ChatListVM.idForRetrieval "ann" b = b.id := by
  obtain ⟨s, list, hrun, -, hlist, huser, -⟩ := run_annWritesToBob
  obtain ⟨hentries, -⟩ := listed hrun gives_annWritesToBob hlist huser
  exact ⟨s, list, hrun, hlist, fun b hb => (hentries b hb).1⟩

theorem list_converges_example : ∃ s list,
    openLists.run (.start [some "ann"]) annWritesToBob = some s ∧ s.observers[0]? = some list ∧
    list.vm.recentMessages.Perm annsRecents.messages := by
  obtain ⟨s, list, hrun, hquiet, hlist, huser, hresult, hrecents⟩ := run_annWritesToBob
  have hcurrent : Stores s.core.core "ann" list.result := by
    rw [hresult]
    intro d
    rw [hrecents, Function.update_of_ne (by simp [getChatListDocument])]
    constructor
    · intro hd
      obtain rfl := List.mem_singleton.mp hd
      exact ⟨annsMessage, rfl, rfl⟩
    · rintro ⟨m, hm, hfields⟩
      by_cases hpath : getChatListDocument "ann" d.1 = ("ann", "bob")
      · rw [hpath, Function.update_self] at hm
        obtain rfl := Option.some.inj hm
        exact List.mem_singleton.mpr (Prod.ext (Prod.mk.inj hpath).2 hfields)
      · rw [Function.update_of_ne hpath] at hm
        exact absurd hm (Option.some_ne_none m).symm
  have hperm := (list_converges hrun gives_annWritesToBob (by decide) hquiet hlist huser
    hcurrent).1
  exact ⟨s, list, hrun, hlist, hresult ▸ hperm⟩

end Subtle.Chat
