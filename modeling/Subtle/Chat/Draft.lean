import Subtle.Chat.Send

/-!
# The text being written

`handleSend` reads `chatText` when send is tapped and empties it when the sender's
write is acknowledged.  Until then the text field takes edits and send is offered as
long as the text is not empty.

Beside the chats a run keeps what the users wrote.  A draft is cleared by an
acknowledgement if it was sent and has not been edited since.

* `Drafts.Kept`: every chat shows its draft, and no two messages are one draft.
* `Drafts.InFlight`: a message with the draft waits for its acknowledgement.
* `drafts_kept_iff`: **nothing is lost or sent twice throughout a run exactly when send is
  never tapped while the draft is in flight, and no acknowledgement arrives while the
  text is neither in flight nor empty**.
-/

namespace Subtle.Chat

open Subtle.Lib

/-- What a user wrote in a chat, and after how many edits. -/
structure Draft where
  text : String
  edits : Nat

/-- The drafts of the chats and, for each message in the order of the taps, its chat and
the edits that had been made there. -/
structure Drafts where
  drafts : Nat → Draft
  taps : List (Nat × Nat)

namespace Drafts

def empty : Drafts := ⟨fun _ => ⟨"", 0⟩, []⟩

/-- The draft of the chat has been sent and not been edited since. -/
def Sent (g : Drafts) (i : Nat) : Prop := (i, (g.drafts i).edits) ∈ g.taps

instance (g : Drafts) (i : Nat) : Decidable (g.Sent i) :=
  inferInstanceAs (Decidable (_ ∈ g.taps))

def edit (g : Drafts) (i : Nat) (text : String) : Drafts :=
  { g with drafts := Function.update g.drafts i ⟨text, (g.drafts i).edits + 1⟩ }

def tap (g : Drafts) (i : Nat) : Drafts :=
  { g with taps := g.taps ++ [(i, (g.drafts i).edits)] }

/-- A message of the chat has been acknowledged. -/
def acknowledge (g : Drafts) (i : Nat) : Drafts :=
  if g.Sent i then { g with drafts := Function.update g.drafts i ⟨"", (g.drafts i).edits⟩ } else g

/-- Send is offered while the text is not empty, and sends if both ids are there. -/
def noteCall (g : Drafts) (s : Messenger) : Call → Option Drafts
  | .openChat _ _ => some g
  | .type i text => some (g.edit i text)
  | .send i _ => (s.vms[i]?).bind fun vm =>
      if vm.chatText = "" then none
      else if vm.senderId.isSome ∧ vm.receiverId.isSome then some (g.tap i) else some g

/-- Every write is acknowledged. -/
def noteAnswer (g : Drafts) (_ : Messenger) : Write → Bool → Option Drafts
  | _, false => none
  | .senderLog x, true => some (g.acknowledge x.vm)
  | _, true => some g

/-- **No text is lost or sent twice**: every chat shows its draft, and no two messages
were sent from one chat without an edit between them. -/
structure Kept (g : Drafts) (s : Messenger) : Prop where
  shown : ∀ (i : Nat) vm, s.vms[i]? = some vm → vm.chatText = (g.drafts i).text
  once : g.taps.Nodup

/-- A message of the chat that was sent since the last edit is not acknowledged yet. -/
def InFlight (g : Drafts) (ops : List Write) (i : Nat) : Prop :=
  ∃ x, .senderLog x ∈ ops ∧ x.vm = i ∧ g.taps[x.message.id]? = some (i, (g.drafts i).edits)

end Drafts

/-- The chats with what their users wrote. -/
def drafting : Service (Messenger × Drafts) Call Write Bool :=
  messaging.watched id id Drafts.noteCall Drafts.noteAnswer

/-- Send is not tapped while the draft is in flight, and an acknowledgement finds the text
empty or in flight. -/
def Timely (c : Config (Messenger × Drafts) Write) : Event Call Bool → Prop
  | .call (.send i _) => ¬ c.core.2.InFlight c.pending i
  | .call _ => True
  | .answer k _ => ∀ x, c.pending[k]? = some (.senderLog x) →
      ∀ vm, c.core.1.vms[x.vm]? = some vm →
        vm.chatText = "" ∨ c.core.2.InFlight c.pending x.vm

variable {s s' : Messenger} {g g' : Drafts} {ops new pre post : List Write} {w : Write}

/-! ### What a step does -/

/-- A call, the state and the drafts that it leaves, and the writes that it issues. -/
inductive Drafted (s : Messenger) (g : Drafts) : Call → Messenger → Drafts → List Write → Prop where
  | opened (senderId receiverId : Option String) :
      Drafted s g (.openChat senderId receiverId)
        { s with vms := s.vms ++ [⟨"", senderId, receiverId⟩] } g []
  | typed (i : Nat) (text : String) (vm : ChatLogVM) (hvm : s.vms[i]? = some vm) :
      Drafted s g (.type i text) { s with vms := s.vms.set i { vm with chatText := text } }
        (g.edit i text) []
  | sent (time : Int) (x : Send) (vm : ChatLogVM) (hvm : s.vms[x.vm]? = some vm)
      (htext : vm.chatText ≠ "") (hid : x.message.id = s.sent.length) :
      Drafted s g (.send x.vm time) { s with sent := s.sent ++ [x] } (g.tap x.vm)
        [.senderLog x, .receiverLog x]
  | unsent (i : Nat) (time : Int) (vm : ChatLogVM) (hvm : s.vms[i]? = some vm)
      (hids : vm.senderId = none ∨ vm.receiverId = none) : Drafted s g (.send i time) s g []

theorem drafted_of_call {c : Call} (h : drafting.call (s, g) c = some ((s', g'), new)) :
    Drafted s g c s' g' new := by
  obtain ⟨hnote, hcall⟩ := Service.watched_call h
  cases c with
  | openChat senderId receiverId =>
    obtain rfl := Option.some.inj hnote
    obtain ⟨rfl, rfl⟩ := Prod.mk.inj (Option.some.inj hcall)
    exact .opened senderId receiverId
  | type i text =>
    obtain rfl := Option.some.inj hnote
    obtain ⟨vm, hvm, heq⟩ := Option.map_eq_some_iff.mp hcall
    obtain ⟨rfl, rfl⟩ := Prod.mk.inj heq
    exact .typed i text vm hvm
  | send i time =>
    obtain ⟨vm, hvm, heq⟩ := Option.map_eq_some_iff.mp hcall
    obtain ⟨vm', hvm', hnote⟩ := Option.bind_eq_some_iff.mp hnote
    obtain rfl := Option.some.inj (hvm.symm.trans hvm')
    obtain ⟨htext, hnote⟩ := Option.ite_none_left_eq_some.mp hnote
    unfold handleSend at heq
    split at heq
    · rename_i senderId receiverId hs hr
      obtain ⟨rfl, rfl⟩ := Prod.mk.inj heq
      rw [if_pos ⟨by rw [hs]; rfl, by rw [hr]; rfl⟩] at hnote
      obtain rfl := Option.some.inj hnote
      exact .sent time ⟨i, s.sent.length, senderId, receiverId, vm.chatText, time⟩ vm hvm htext rfl
    · rename_i hnone
      obtain ⟨rfl, rfl⟩ := Prod.mk.inj heq
      have hids : vm.senderId = none ∨ vm.receiverId = none := by
        cases hs : vm.senderId with
        | none => exact Or.inl rfl
        | some senderId =>
          cases hr : vm.receiverId with
          | none => exact Or.inr rfl
          | some receiverId => exact absurd hr (hnone senderId receiverId hs)
      rw [if_neg (by rcases hids with h | h <;> simp [h])] at hnote
      obtain rfl := Option.some.inj hnote
      exact .unsent i time vm hvm hids

/-- The state and the drafts that the acknowledgement of a write leaves: the chat of a
message sent is emptied, and the rest concerns documents. -/
theorem answered_of_answer (h : Tracked s (pre ++ w :: post)) {ok : Bool}
    (hanswer : drafting.answer (s, g) w ok = some ((s', g'), new)) :
    s'.sent = s.sent ∧
      ((∃ x vm, w = .senderLog x ∧ s.vms[x.vm]? = some vm ∧
          s'.vms = s.vms.set x.vm { vm with chatText := "" } ∧ g' = g.acknowledge x.vm) ∨
        (∀ x, w ≠ .senderLog x) ∧ s'.vms = s.vms ∧ g' = g) := by
  obtain ⟨hnote, hanswer⟩ := Service.watched_answer hanswer
  obtain ⟨rfl, -⟩ := Prod.mk.inj (Option.some.inj hanswer)
  cases ok with
  | false => exact absurd hnote (by cases w <;> exact (Option.some_ne_none _).symm)
  | true =>
    cases w with
    | senderLog x =>
      obtain rfl := Option.some.inj hnote
      have hx : x ∈ s.sent := h.genuine (.senderLog x) (Or.inl (by simp))
      obtain ⟨vm, hvm, -⟩ := h.vm x hx
      refine ⟨?_, Or.inl ⟨x, vm, rfl, hvm, ?_, rfl⟩⟩
      · simp [senderSaved, Write.commit, hvm]
      · simp [senderSaved, Write.commit, hvm]
    | receiverLog x =>
      obtain rfl := Option.some.inj hnote
      exact ⟨rfl, Or.inr ⟨by simp, rfl, rfl⟩⟩
    | recent path m =>
      obtain rfl := Option.some.inj hnote
      exact ⟨rfl, Or.inr ⟨by simp, rfl, rfl⟩⟩

/-! ### What every run keeps -/

namespace Drafts

@[simp] theorem acknowledge_taps (i : Nat) : (g.acknowledge i).taps = g.taps := by
  unfold acknowledge
  split <;> rfl

theorem edit_drafts_self (i : Nat) (text : String) :
    (g.edit i text).drafts i = ⟨text, (g.drafts i).edits + 1⟩ := Function.update_self i _ _

theorem edit_drafts_of_ne {i j : Nat} (h : j ≠ i) (text : String) :
    (g.edit i text).drafts j = g.drafts j := Function.update_of_ne h _ _

theorem acknowledge_drafts_of_ne {i j : Nat} (h : j ≠ i) :
    (g.acknowledge i).drafts j = g.drafts j := by
  unfold acknowledge
  split
  · exact Function.update_of_ne h _ _
  · rfl

@[simp] theorem acknowledge_edits (i j : Nat) :
    ((g.acknowledge i).drafts j).edits = (g.drafts j).edits := by
  unfold acknowledge
  split
  · by_cases h : j = i
    · subst h
      simp
    · simp [h]
  · rfl

/-- An acknowledged draft is empty exactly when it was or had been sent. -/
theorem acknowledge_text (i : Nat) :
    ((g.acknowledge i).drafts i).text = "" ↔ g.Sent i ∨ (g.drafts i).text = "" := by
  unfold acknowledge
  split
  · rename_i hsent
    simp [hsent]
  · rename_i hsent
    simp [hsent]

theorem InFlight.sent {i : Nat} (h : g.InFlight ops i) : g.Sent i := by
  obtain ⟨x, -, -, htap⟩ := h
  exact List.mem_of_getElem? htap

end Drafts

/-- The drafts agree with the messages: a draft that was sent and is not empty is in
flight. -/
structure Drafts.Sound (s : Messenger) (g : Drafts) (ops : List Write) : Prop where
  documents : Consistent s ops
  fresh : ∀ i, s.vms.length ≤ i → (g.drafts i).text = ""
  taps : g.taps.length = s.sent.length
  past : ∀ i e, (i, e) ∈ g.taps → e ≤ (g.drafts i).edits
  flight : ∀ i, (g.drafts i).text ≠ "" → g.Sent i → g.InFlight ops i

namespace Drafts.Sound

theorem empty : Sound Messenger.empty Drafts.empty [] where
  documents := consistent_empty
  fresh _ _ := rfl
  taps := rfl
  past _ _ h := absurd h List.not_mem_nil
  flight _ h := absurd rfl h

/-- The message whose write is outstanding was tapped. -/
theorem id_lt (h : Sound s g ops) {x : Send} (hx : .senderLog x ∈ ops) :
    x.message.id < g.taps.length := by
  have hsent : x ∈ s.sent := h.documents.genuine _ (Or.inl hx)
  obtain ⟨i, hi⟩ := List.mem_iff_getElem?.mp hsent
  rw [h.documents.id i x hi, h.taps]
  exact (List.getElem?_eq_some_iff.mp hi).1

theorem edit (h : Sound s g ops) {i : Nat} {vm : ChatLogVM} (hvm : s.vms[i]? = some vm)
    (text : String) :
    Sound { s with vms := s.vms.set i { vm with chatText := text } } (g.edit i text) ops where
  documents := h.documents.of_vms (sameIds_set hvm text)
  fresh j hj := by
    rw [List.length_set] at hj
    have hi := (List.getElem?_eq_some_iff.mp hvm).1
    rw [edit_drafts_of_ne (by omega)]
    exact h.fresh j hj
  taps := h.taps
  past j e he := by
    have hle := h.past j e he
    by_cases hij : j = i
    · subst hij
      rw [edit_drafts_self]
      show e ≤ (g.drafts j).edits + 1
      omega
    · rwa [edit_drafts_of_ne hij]
  flight j htext hsent := by
    by_cases hij : j = i
    · -- no tap knows of the new edit
      subst hij
      rw [Drafts.Sent, edit_drafts_self] at hsent
      have hle := h.past j _ hsent
      exact absurd hle (Nat.not_succ_le_self _)
    · rw [edit_drafts_of_ne hij] at htext
      rw [Drafts.Sent, edit_drafts_of_ne hij] at hsent
      rw [InFlight, edit_drafts_of_ne hij]
      exact h.flight j htext hsent

theorem tap (h : Sound s g ops) {x : Send} (hid : x.message.id = s.sent.length)
    (hdocuments : Consistent { s with sent := s.sent ++ [x] }
      (ops ++ [.senderLog x, .receiverLog x])) :
    Sound { s with sent := s.sent ++ [x] } (g.tap x.vm)
      (ops ++ [.senderLog x, .receiverLog x]) where
  documents := hdocuments
  fresh := h.fresh
  taps := by simp [Drafts.tap, h.taps]
  past j e he := by
    rcases List.mem_append.mp he with he | he
    · exact h.past j e he
    · obtain ⟨rfl, rfl⟩ := Prod.mk.inj (List.mem_singleton.mp he)
      exact Nat.le_refl _
  flight j htext hsent := by
    rcases List.mem_append.mp hsent with hsent | hsent
    · obtain ⟨y, hy, hvm, htap⟩ := h.flight j htext hsent
      refine ⟨y, List.mem_append_left _ hy, hvm, ?_⟩
      exact (List.getElem?_append_left (h.id_lt hy)).trans htap
    · obtain ⟨rfl, -⟩ := Prod.mk.inj (List.mem_singleton.mp hsent)
      refine ⟨x, by simp, rfl, ?_⟩
      rw [hid, ← h.taps]
      exact List.getElem?_concat_length

theorem call (h : Sound s g ops) {c : Call}
    (hcall : drafting.call (s, g) c = some ((s', g'), new)) : Sound s' g' (ops ++ new) := by
  have hdocuments := h.documents.call (Service.watched_call hcall).2
  cases drafted_of_call hcall with
  | opened senderId receiverId =>
    rw [List.append_nil] at hdocuments ⊢
    refine ⟨hdocuments, fun i hi => h.fresh i ?_, h.taps, h.past, h.flight⟩
    rw [List.length_append] at hi
    omega
  | typed i text vm hvm =>
    rw [List.append_nil]
    exact h.edit hvm text
  | sent time x vm hvm htext hid => exact h.tap hid hdocuments
  | unsent i time vm hvm hids => rwa [List.append_nil]

theorem answer (h : Sound s g (pre ++ w :: post)) {ok : Bool}
    (hanswer : drafting.answer (s, g) w ok = some ((s', g'), new)) :
    Sound s' g' (pre ++ post ++ new) := by
  have hdocuments : Consistent s' (pre ++ post ++ new) := by
    obtain ⟨-, hanswer⟩ := Service.watched_answer hanswer
    obtain ⟨rfl, rfl⟩ := Prod.mk.inj (Option.some.inj hanswer)
    exact h.documents.answerWrite ok
  have hstay : ∀ i, (∀ x, w = .senderLog x → x.vm ≠ i) → g.InFlight (pre ++ w :: post) i →
      g.InFlight (pre ++ post ++ new) i := by
    rintro i hne ⟨x, hx, hvm, htap⟩
    refine ⟨x, List.mem_append_left _ ?_, hvm, htap⟩
    exact (Service.mem_pending_iff.mp hx).resolve_left fun heq => hne x heq.symm hvm
  obtain ⟨hsent, hcases⟩ := answered_of_answer h.documents.toTracked hanswer
  rcases hcases with ⟨x, vm, rfl, hvm, hvms, rfl⟩ | ⟨hother, hvms, rfl⟩
  · refine ⟨hdocuments, ?_, ?_, ?_, ?_⟩
    · intro i hi
      rw [hvms, List.length_set] at hi
      have hlt := (List.getElem?_eq_some_iff.mp hvm).1
      rw [acknowledge_drafts_of_ne (by omega)]
      exact h.fresh i hi
    · rw [acknowledge_taps, hsent]
      exact h.taps
    · intro i e he
      rw [acknowledge_edits]
      exact h.past i e (acknowledge_taps (g := g) x.vm ▸ he)
    · intro i htext hsent
      rw [Drafts.Sent, acknowledge_taps, acknowledge_edits] at hsent
      by_cases hi : i = x.vm
      · -- a draft that was sent has just been emptied
        subst hi
        exact absurd (acknowledge_text x.vm |>.mpr (Or.inl hsent)) htext
      · rw [acknowledge_drafts_of_ne hi] at htext
        rw [InFlight, acknowledge_taps, acknowledge_edits]
        exact hstay i (fun y hy => by cases hy; exact Ne.symm hi) (h.flight i htext hsent)
  · refine ⟨hdocuments, fun i hi => h.fresh i (hvms ▸ hi), hsent ▸ h.taps, h.past, ?_⟩
    intro i htext hsent
    exact hstay i (fun x hx => absurd hx (hother x)) (h.flight i htext hsent)

theorem step {c c' : Config (Messenger × Drafts) Write} {e : Event Call Bool}
    (h : Sound c.core.1 c.core.2 c.pending) (hstep : drafting.step c e = some c') :
    Sound c'.core.1 c'.core.2 c'.pending := by
  obtain ⟨⟨s, g⟩, ops⟩ := c
  rcases Service.step_cases hstep with ⟨x, ⟨s', g'⟩, new, rfl, hcall, rfl⟩ |
    ⟨pre, w, post, ok, ⟨s', g'⟩, new, rfl, hpending, hanswer, rfl⟩
  · exact h.call hcall
  · subst hpending
    exact h.answer hanswer

end Drafts.Sound

/-! ### When nothing is lost or sent twice -/

namespace Drafts

theorem kept_empty : empty.Kept Messenger.empty :=
  ⟨fun _ _ h => absurd h (Option.some_ne_none _).symm, List.nodup_nil⟩

/-- One chat and its draft change to the same text. -/
theorem Kept.set (h : g.Kept s) {i : Nat} {vm : ChatLogVM} (hvm : s.vms[i]? = some vm)
    {text : String} (hvms : s'.vms = s.vms.set i { vm with chatText := text })
    (htext : (g'.drafts i).text = text) (hother : ∀ j, j ≠ i → g'.drafts j = g.drafts j)
    (htaps : g'.taps = g.taps) : g'.Kept s' := by
  refine ⟨fun j vm' hj => ?_, htaps ▸ h.once⟩
  rw [hvms] at hj
  by_cases hij : j = i
  · subst hij
    rw [List.getElem?_set_self (List.getElem?_eq_some_iff.mp hvm).1] at hj
    obtain rfl := Option.some.inj hj
    exact htext.symm
  · rw [List.getElem?_set_ne (Ne.symm hij)] at hj
    rw [hother j hij]
    exact h.shown j vm' hj

/-- A message is one more draft exactly when the draft was not sent. -/
theorem Kept.tap_iff (h : g.Kept s) (i : Nat) (sent : List Send) :
    (g.tap i).Kept { s with sent } ↔ ¬ g.Sent i := by
  constructor
  · intro hkept hsent
    exact (List.nodup_append.mp hkept.once).2.2 _ hsent _ List.mem_cons_self rfl
  · intro hunsent
    refine ⟨h.shown, List.nodup_append.mpr ⟨h.once, List.pairwise_singleton _ _, ?_⟩⟩
    rintro a ha b hb rfl
    obtain rfl := List.mem_singleton.mp hb
    exact hunsent ha

/-- The chat of an acknowledged message shows its draft if the draft was sent or empty. -/
theorem Kept.acknowledge_iff (h : g.Kept s) {i : Nat} {vm : ChatLogVM}
    (hvm : s.vms[i]? = some vm) (hvms : s'.vms = s.vms.set i { vm with chatText := "" }) :
    (g.acknowledge i).Kept s' ↔ g.Sent i ∨ (g.drafts i).text = "" := by
  rw [← acknowledge_text]
  constructor
  · intro hkept
    have hself : s'.vms[i]? = some { vm with chatText := "" } := by
      rw [hvms, List.getElem?_set_self (List.getElem?_eq_some_iff.mp hvm).1]
    exact (hkept.shown i _ hself).symm
  · intro htext
    exact h.set hvm hvms htext (fun j hj => acknowledge_drafts_of_ne hj) (acknowledge_taps i)

namespace Sound

/-- A draft that is not empty is in flight exactly when it was sent. -/
theorem inFlight_iff (h : Sound s g ops) {i : Nat} (htext : (g.drafts i).text ≠ "") :
    g.InFlight ops i ↔ g.Sent i :=
  ⟨InFlight.sent, h.flight i htext⟩

theorem kept_call (h : Sound s g ops) (hkept : g.Kept s) {c : Call}
    (hcall : Drafted s g c s' g' new) : g'.Kept s' ↔ Timely ⟨(s, g), ops⟩ (.call c) := by
  cases hcall with
  | opened senderId receiverId =>
    refine iff_of_true ⟨?_, hkept.once⟩ trivial
    intro i vm hvm
    by_cases hi : i < s.vms.length
    · exact hkept.shown i vm ((List.getElem?_append_left hi).symm.trans hvm)
    · rw [h.fresh i (Nat.le_of_not_lt hi)]
      rw [List.getElem?_append_right (Nat.le_of_not_lt hi)] at hvm
      obtain ⟨hlt, rfl⟩ := List.getElem?_eq_some_iff.mp hvm
      simp
  | typed i text vm hvm =>
    have htext : ((g.edit i text).drafts i).text = text := by rw [edit_drafts_self]
    exact iff_of_true
      (hkept.set hvm rfl htext (fun j hj => edit_drafts_of_ne hj text) rfl) trivial
  | sent time x vm hvm htext hid =>
    rw [hkept.shown x.vm vm hvm] at htext
    show (g.tap x.vm).Kept { s with sent := s.sent ++ [x] } ↔ ¬ g.InFlight ops x.vm
    rw [h.inFlight_iff htext]
    exact hkept.tap_iff x.vm _
  | unsent i time vm hvm hids =>
    refine iff_of_true hkept ?_
    -- a chat without both ids has sent nothing
    rintro ⟨x, hx, rfl, -⟩
    have hsent : x ∈ s.sent := h.documents.genuine _ (Or.inl hx)
    obtain ⟨vm', hvm', hs, hr⟩ := h.documents.vm x hsent
    obtain rfl := Option.some.inj (hvm.symm.trans hvm')
    rcases hids with hnone | hnone
    · exact absurd (hnone.symm.trans hs) (Option.some_ne_none _).symm
    · exact absurd (hnone.symm.trans hr) (Option.some_ne_none _).symm

theorem kept_answer (h : Sound s g (pre ++ w :: post)) (hkept : g.Kept s) {ok : Bool}
    (hanswer : drafting.answer (s, g) w ok = some ((s', g'), new)) :
    g'.Kept s' ↔ Timely ⟨(s, g), pre ++ w :: post⟩ (.answer pre.length ok) := by
  have hw : (pre ++ w :: post)[pre.length]? = some w := by simp
  obtain ⟨-, hcases⟩ := answered_of_answer h.documents.toTracked hanswer
  rcases hcases with ⟨x, vm, rfl, hvm, hvms, rfl⟩ | ⟨hother, hvms, rfl⟩
  · rw [hkept.acknowledge_iff hvm hvms]
    have hshown := hkept.shown x.vm vm hvm
    constructor
    · intro hclear y hy vm' hvm'
      obtain rfl := Write.senderLog.inj (Option.some.inj (hw.symm.trans hy))
      obtain rfl := Option.some.inj (hvm.symm.trans hvm')
      by_cases htext : vm.chatText = ""
      · exact Or.inl htext
      · rw [hshown] at htext
        exact Or.inr ((h.inFlight_iff htext).mpr (hclear.resolve_right htext))
    · intro htimely
      rcases htimely x hw vm hvm with htext | hflight
      · exact Or.inr (hshown.symm.trans htext)
      · exact Or.inl hflight.sent
  · refine iff_of_true ⟨hvms ▸ hkept.shown, hkept.once⟩ ?_
    intro x hx
    exact absurd (Option.some.inj (hw.symm.trans hx)) (hother x)

theorem kept_step {c c' : Config (Messenger × Drafts) Write} {e : Event Call Bool}
    (h : Sound c.core.1 c.core.2 c.pending) (hkept : c.core.2.Kept c.core.1)
    (hstep : drafting.step c e = some c') : c'.core.2.Kept c'.core.1 ↔ Timely c e := by
  obtain ⟨⟨s, g⟩, ops⟩ := c
  rcases Service.step_cases hstep with ⟨x, ⟨s', g'⟩, new, rfl, hcall, rfl⟩ |
    ⟨pre, w, post, ok, ⟨s', g'⟩, new, rfl, hpending, hanswer, rfl⟩
  · exact h.kept_call hkept (drafted_of_call hcall)
  · subst hpending
    exact h.kept_answer hkept hanswer

end Sound

end Drafts

/-- **No text is lost or sent twice throughout a run exactly when every tap and every
acknowledgement of the run is timely.** -/
theorem drafts_kept_iff {es : List (Event Call Bool)} {d : Config (Messenger × Drafts) Write}
    (hrun : drafting.machine.run ⟨(.empty, .empty), []⟩ es = some d) :
    drafting.machine.Always (fun c => c.core.2.Kept c.core.1) ⟨(.empty, .empty), []⟩ es ↔
      drafting.machine.Along Timely ⟨(.empty, .empty), []⟩ es :=
  Machine.always_iff (J := fun c => c.core.2.Sound c.core.1 c.pending)
    (fun _ _ _ h hstep => h.step hstep) (fun _ _ _ h hkept hstep => h.kept_step hkept hstep)
    Drafts.Sound.empty Drafts.kept_empty hrun

/-- Ann writes to Bob and goes on writing before the message is acknowledged. -/
def annGoesOn : List (Event Call Bool) :=
  [.call (.openChat (some "ann") (some "bob")), .call (.type 0 "hi"), .call (.send 0 0),
    .call (.type 0 "how are you"), .answer 0 true]

/-- Ann waits for the acknowledgement before she goes on writing. -/
def annWaits : List (Event Call Bool) :=
  [.call (.openChat (some "ann") (some "bob")), .call (.type 0 "hi"), .call (.send 0 0),
    .answer 0 true, .call (.type 0 "how are you"), .call (.send 0 1), .answer 3 true]

theorem timely_annWaits : drafting.machine.Along Timely ⟨(.empty, .empty), []⟩ annWaits := by
  refine Machine.along_cons rfl trivial (Machine.along_cons rfl trivial
    (Machine.along_cons rfl ?_ (Machine.along_cons rfl ?_ (Machine.along_cons rfl trivial
      (Machine.along_cons rfl ?_ (Machine.along_cons rfl ?_ trivial))))))
  · rintro ⟨x, hx, -⟩
    exact absurd hx List.not_mem_nil
  · intro x hx vm _
    have hmem := List.mem_of_getElem? hx
    obtain rfl := Write.senderLog.inj (Option.some.inj hx)
    exact Or.inr ⟨_, hmem, rfl, rfl⟩
  · rintro ⟨x, hx, -⟩
    -- what is outstanding are the other writes of the first message
    rcases List.mem_cons.mp hx with h | hx
    · exact Write.noConfusion h
    rcases List.mem_cons.mp hx with h | hx
    · exact Write.noConfusion h
    exact Write.noConfusion (List.mem_singleton.mp hx)
  · intro x hx vm _
    have hmem := List.mem_of_getElem? hx
    obtain rfl := Write.senderLog.inj (Option.some.inj hx)
    exact Or.inr ⟨_, hmem, rfl, rfl⟩

/-- Nothing is lost where she waits, and the condition fails where she does not. -/
theorem drafts_kept_iff_example :
    drafting.machine.Always (fun c => c.core.2.Kept c.core.1) ⟨(.empty, .empty), []⟩ annWaits ∧
      ¬ drafting.machine.Along Timely ⟨(.empty, .empty), []⟩ annGoesOn := by
  refine ⟨(drafts_kept_iff rfl).mpr timely_annWaits, fun htimely => ?_⟩
  have halways := (drafts_kept_iff rfl).mpr htimely
  have hkept := ((((halways.2 _ rfl).2 _ rfl).2 _ rfl).2 _ rfl).2 _ rfl
  exact absurd (hkept.shown 0 _ rfl) (by decide)

/-- What she wrote last is cleared. -/
theorem draft_lost : ¬ ∀ (es : List (Event Call Bool)) (d : Config (Messenger × Drafts) Write),
    drafting.machine.run ⟨(.empty, .empty), []⟩ es = some d → d.core.2.Kept d.core.1 := by
  intro h
  have hkept := h annGoesOn _ rfl
  exact absurd (hkept.shown 0 _ rfl) (by decide)

/-- A second tap before the acknowledgement sends the text again. -/
example : (drafting.machine.run ⟨(.empty, .empty), []⟩
    [.call (.openChat (some "ann") (some "bob")), .call (.type 0 "hi"), .call (.send 0 0),
      .call (.send 0 1), .answer 0 true]).map (fun d => d.core.1.sent.map (·.message.text)) =
        some ["hi", "hi"] := by decide +kernel

end Subtle.Chat
