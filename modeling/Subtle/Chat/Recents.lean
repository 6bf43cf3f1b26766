import Subtle.Chat.Send
import Mathlib.Data.Prod.Lex

/-!
# The recent message of a chat

Each of two users has a document with the message to show in the chat list.  A
send sets both, whatever they hold, and the writes of several sends commit in any
order.  A write that commits over a message sent later is stale: the document it
leaves is not the most recent message, and the other user's may differ.

* `recorded_answer`: without stale writes a document never falls behind a message
  whose write has committed.
* `recents_agree`: **in a run without stale writes both documents end with the same
  message, the latest one**.
-/

namespace Subtle.Chat

open Subtle.Lib

/-- The time of a message, and for messages of one time the order of sending. -/
def Message.stamp (m : Message) : Int ×ₗ Nat := toLex (m.time, m.id)

/-- The write to be answered sets a recent document of the two users that holds a
later message. -/
def staleWrite (a b : String) (c : Config Messenger Write) : Event Call Bool → Bool
  | .answer i _ =>
      match c.pending[i]? with
      | some (.recent path m) =>
          decide (path = (a, b) ∨ path = (b, a)) &&
            (c.core.recents path).any fun old => decide (m.stamp < old.stamp)
      | _ => false
  | .call _ => false

/-- Both documents hold the same message, the latest one sent between the users. -/
def Agree (s : Messenger) (a b : String) : Prop :=
  s.recents (a, b) = s.recents (b, a) ∧
    ∀ m, s.Sent m → m.between a b → ∃ newest, s.recents (a, b) = some newest ∧
      s.Sent newest ∧ newest.between a b ∧ m.time ≤ newest.time

variable {s s' : Messenger} {ops new pre post : List Write} {w : Write} {a b : String}

/-! ### What has been recorded -/

/-- A message between the users still has to reach the sender's log, or each document
will get it, or has it or a later one. -/
def Recorded (a b : String) (s : Messenger) (ops : List Write) : Prop :=
  ∀ x ∈ s.sent, x.message.between a b → .senderLog x ∈ ops ∨
    ∀ path, path = (a, b) ∨ path = (b, a) → .recent path x.message ∈ ops ∨
      ∃ m, s.recents path = some m ∧ x.message.stamp ≤ m.stamp

theorem recorded_mono (h : Recorded a b s ops) (hsent : s'.sent = s.sent)
    (hrec : s'.recents = s.recents) {ops' : List Write}
    (hops : ∀ w ∈ ops, (∃ x, w = .receiverLog x) ∨ w ∈ ops') : Recorded a b s' ops' := by
  intro x hx hbetween
  rw [hsent] at hx
  rcases h x hx hbetween with hpending | hdocs
  · exact Or.inl ((hops _ hpending).resolve_left (by simp))
  · refine Or.inr fun path hpath => ?_
    rw [hrec]
    exact (hdocs path hpath).imp_left fun hpending => (hops _ hpending).resolve_left (by simp)

theorem recorded_call (h : Recorded a b s ops) {c : Call}
    (hcall : messaging.call s c = some (s', new)) : Recorded a b s' (ops ++ new) := by
  have hkeep : ∀ w ∈ ops, (∃ x, w = .receiverLog x) ∨ w ∈ ops ++ new := fun w hw =>
    Or.inr (List.mem_append_left _ hw)
  rcases call_cases hcall with ⟨vms, -, rfl, rfl⟩ | ⟨x, vm, -, -, -, -, rfl, rfl⟩
  · exact recorded_mono h rfl rfl hkeep
  · intro y hy hbetween
    rcases List.mem_append.mp hy with hy | hy
    · exact recorded_mono h rfl rfl hkeep y hy hbetween
    · obtain rfl := List.mem_singleton.mp hy
      exact Or.inl (by simp)

theorem stamp_le_of_not_stale {path : Path} {m old : Message} {ok : Bool}
    (h : staleWrite a b ⟨s, pre ++ .recent path m :: post⟩ (.answer pre.length ok) = false)
    (hpath : path = (a, b) ∨ path = (b, a)) (hold : s.recents path = some old) :
    old.stamp ≤ m.stamp := by
  have hop : (pre ++ Write.recent path m :: post)[pre.length]? = some (.recent path m) := by simp
  simp only [staleWrite, hop, hold, Option.any_some, hpath, decide_true, Bool.true_and,
    decide_eq_false_iff_not] at h
  exact le_of_not_gt h

theorem recorded_senderLog {x : Send} (hc : Consistent s (pre ++ .senderLog x :: post))
    (h : Recorded a b s (pre ++ .senderLog x :: post)) :
    Recorded a b (answerWrite s (.senderLog x) true).1
      (pre ++ post ++ (answerWrite s (.senderLog x) true).2) := by
  have hx : x ∈ s.sent := hc.genuine (.senderLog x) (Or.inl (by simp))
  obtain ⟨s', heq, hsent, hrec⟩ := answerWrite_senderLog hc.toTracked hx
  rw [heq]
  intro y hy hbetween
  rw [hsent] at hy
  rcases h y hy hbetween with hpending | hdocs
  · rcases Service.mem_pending_iff.mp hpending with heq | hpending
    · obtain rfl := Write.senderLog.inj heq
      refine Or.inr fun path hpath => Or.inl (List.mem_append_right _ ?_)
      -- the recent messages of this send go to both documents
      rcases hbetween with ⟨rfl, rfl⟩ | ⟨rfl, rfl⟩ <;> rcases hpath with rfl | rfl <;> simp
    · exact Or.inl (List.mem_append_left _ hpending)
  · refine Or.inr fun path hpath => ?_
    rw [hrec]
    refine (hdocs path hpath).imp_left fun hpending => List.mem_append_left _ ?_
    exact (Service.mem_pending_iff.mp hpending).resolve_left (by simp)

theorem recorded_recent {path : Path} {m : Message}
    (h : Recorded a b s (pre ++ .recent path m :: post))
    (hfresh : staleWrite a b ⟨s, pre ++ .recent path m :: post⟩ (.answer pre.length true) = false) :
    Recorded a b (answerWrite s (.recent path m) true).1 (pre ++ post ++ []) := by
  intro y hy hbetween
  rcases h y hy hbetween with hpending | hdocs
  · have hrest := (Service.mem_pending_iff.mp hpending).resolve_left (by simp)
    exact Or.inl (List.mem_append_left _ hrest)
  · refine Or.inr fun path' hpath' => ?_
    have hupdate : (answerWrite s (.recent path m) true).1.recents path' =
        if path' = path then some m else s.recents path' := Function.update_apply _ _ _ _
    rw [hupdate]
    rcases hdocs path' hpath' with hpending | ⟨old, hold, hle⟩
    · rcases Service.mem_pending_iff.mp hpending with heq | hpending
      · obtain ⟨rfl, rfl⟩ := Write.recent.inj heq
        exact Or.inr ⟨_, if_pos rfl, le_refl _⟩
      · exact Or.inl (List.mem_append_left _ hpending)
    · right
      by_cases hsame : path' = path
      · subst hsame
        exact ⟨m, if_pos rfl, hle.trans (stamp_le_of_not_stale hfresh hpath' hold)⟩
      · exact ⟨old, (if_neg hsame).trans hold, hle⟩

/-- **A write that is not stale** keeps what has been recorded. -/
theorem recorded_answer (hc : Consistent s (pre ++ w :: post))
    (h : Recorded a b s (pre ++ w :: post))
    (hfresh : staleWrite a b ⟨s, pre ++ w :: post⟩ (.answer pre.length true) = false) :
    Recorded a b (answerWrite s w true).1 (pre ++ post ++ (answerWrite s w true).2) := by
  cases w with
  | senderLog x => exact recorded_senderLog hc h
  | receiverLog x =>
    refine recorded_mono h rfl rfl ?_
    intro v hv
    rcases Service.mem_pending_iff.mp hv with rfl | hv
    · exact Or.inl ⟨x, rfl⟩
    · exact Or.inr (List.mem_append_left _ hv)
  | recent path m => exact recorded_recent h hfresh

/-! ### Whole runs -/

theorem recorded_run {es : List (Event Call Bool)} {d : Config Messenger Write}
    (h : messaging.machine.run ⟨Messenger.empty, []⟩ es = some d)
    (hok : ∀ e ∈ es, succeeds e = true)
    (hfresh : messaging.machine.Along (fun c e => staleWrite a b c e = false)
      ⟨Messenger.empty, []⟩ es) : Recorded a b d.core d.pending := by
  have hinv : Consistent d.core d.pending ∧ Recorded a b d.core d.pending := by
    refine Service.run_inv (I := fun s ops => Consistent s ops ∧ Recorded a b s ops) ?_ ?_ ?_
      (hfresh.and (Machine.along_of_mem hok _)) h
    · intro s ops x s' new hI _ hcall
      exact ⟨hI.1.call hcall, recorded_call hI.2 hcall⟩
    · intro s pre w post ok s' new hI hP hanswer
      obtain ⟨rfl, rfl⟩ := Prod.mk.inj (Option.some.inj hanswer)
      obtain ⟨hstale, rfl⟩ := hP
      exact ⟨hI.1.answerWrite true, recorded_answer hI.1 hI.2 hstale⟩
    · exact ⟨consistent_empty, by simp [Recorded, Messenger.empty]⟩
  exact hinv.2

/-- A recent document of the two users holds a message between them. -/
theorem genuine_recent {path : Path} {m : Message} (h : Genuine s (.recent path m))
    (hpath : path = (a, b) ∨ path = (b, a)) : s.Sent m ∧ m.between a b := by
  obtain ⟨x, hx, rfl, -, hp⟩ := h
  refine ⟨⟨x, hx, rfl⟩, ?_⟩
  rcases hpath with rfl | rfl <;> rcases hp with hp | hp <;> obtain ⟨rfl, rfl⟩ := Prod.mk.inj hp
  · exact Or.inl ⟨rfl, rfl⟩
  · exact Or.inr ⟨rfl, rfl⟩
  · exact Or.inr ⟨rfl, rfl⟩
  · exact Or.inl ⟨rfl, rfl⟩

/-- With no write outstanding, both documents of the users have every message between
them or a later one. -/
theorem recent_of_sent (h : Recorded a b s []) {m : Message} (hsent : s.Sent m)
    (hbetween : m.between a b) {path : Path} (hpath : path = (a, b) ∨ path = (b, a)) :
    ∃ newest, s.recents path = some newest ∧ m.stamp ≤ newest.stamp := by
  obtain ⟨x, hx, rfl⟩ := hsent
  have hdocs := (h x hx hbetween).resolve_left List.not_mem_nil
  exact (hdocs path hpath).resolve_left List.not_mem_nil

theorem recents_eq (hc : Consistent s []) (h : Recorded a b s []) :
    s.recents (a, b) = s.recents (b, a) := by
  cases hab : s.recents (a, b) with
  | none =>
    cases hba : s.recents (b, a) with
    | none => rfl
    | some m =>
      obtain ⟨hsent, hbetween⟩ := genuine_recent (hc.recents _ m hba) (Or.inr rfl)
      obtain ⟨n, hn, -⟩ := recent_of_sent h hsent hbetween (Or.inl rfl)
      exact absurd (hab.symm.trans hn) (Option.some_ne_none n).symm
  | some m =>
    obtain ⟨hsent, hbetween⟩ := genuine_recent (hc.recents _ m hab) (Or.inl rfl)
    obtain ⟨n, hn, hmn⟩ := recent_of_sent h hsent hbetween (Or.inr rfl)
    obtain ⟨hsent', hbetween'⟩ := genuine_recent (hc.recents _ n hn) (Or.inr rfl)
    obtain ⟨m', hm', hnm⟩ := recent_of_sent h hsent' hbetween' (Or.inl rfl)
    obtain rfl := Option.some.inj (hab.symm.trans hm')
    -- each is at least as late as the other
    have hid : m.id = n.id := (Prod.mk.inj (toLex.injective (le_antisymm hmn hnm))).2
    obtain ⟨x, hx, rfl⟩ := hsent
    obtain ⟨y, hy, rfl⟩ := hsent'
    rw [hn, hc.send_inj hx hy hid]

/-- **In a run without stale writes both documents end with the latest message.** -/
theorem recents_agree {es : List (Event Call Bool)} {d : Config Messenger Write}
    (h : messaging.machine.run ⟨Messenger.empty, []⟩ es = some d)
    (hok : ∀ e ∈ es, succeeds e = true)
    (hfresh : messaging.machine.Along (fun c e => staleWrite a b c e = false)
      ⟨Messenger.empty, []⟩ es) (hquiet : d.pending = []) : Agree d.core a b := by
  have hc := consistent_run h
  have hrecorded := recorded_run h hok hfresh
  rw [hquiet] at hc hrecorded
  refine ⟨recents_eq hc hrecorded, ?_⟩
  intro m hsent hbetween
  obtain ⟨n, hn, hle⟩ := recent_of_sent hrecorded hsent hbetween (Or.inl rfl)
  obtain ⟨hsent', hbetween'⟩ := genuine_recent (hc.recents _ n hn) (Or.inl rfl)
  refine ⟨n, hn, hsent', hbetween', ?_⟩
  rcases Prod.Lex.toLex_le_toLex.mp hle with hlt | ⟨heq, -⟩
  · exact Int.le_of_lt hlt
  · exact Int.le_of_eq heq

/-- Ann writes to Bob, and Bob answers once her message is everywhere. -/
def inTurn : List (Event Call Bool) :=
  [.call (.openChat (some "ann") (some "bob")), .call (.openChat (some "bob") (some "ann")),
    .call (.send 0 1), .answer 0 true, .answer 0 true, .answer 0 true, .answer 0 true,
    .call (.send 1 2), .answer 0 true, .answer 0 true, .answer 0 true, .answer 0 true]

theorem recents_agree_example : ∃ d, messaging.machine.run ⟨Messenger.empty, []⟩ inTurn = some d ∧
    d.core.sent.length = 2 ∧ Agree d.core "ann" "bob" := by
  have hrun : ∃ d, messaging.machine.run ⟨Messenger.empty, []⟩ inTurn = some d ∧
      d.core.sent.length = 2 ∧ d.pending = [] := ⟨_, rfl, rfl, rfl⟩
  obtain ⟨d, hrun, hsent, hquiet⟩ := hrun
  exact ⟨d, hrun, hsent, recents_agree hrun (by decide) (by decide) hquiet⟩

/-- Ann's message and Bob's later one, both logged: Ann's document gets them in order
of time, Bob's the other way round. -/
theorem recents_disagree : ¬ ∀ (a b : String) (es : List (Event Call Bool))
    (d : Config Messenger Write), a ≠ b →
      messaging.machine.run ⟨Messenger.empty, []⟩ es = some d →
        (∀ e ∈ es, succeeds e = true) → d.pending = [] → Agree d.core a b := by
  intro h
  have hagree := h "ann" "bob"
    [.call (.openChat (some "ann") (some "bob")), .call (.openChat (some "bob") (some "ann")),
      .call (.send 0 1), .call (.send 1 2), .answer 0 true, .answer 0 true, .answer 0 true,
      .answer 0 true, .answer 2 true, .answer 0 true, .answer 0 true, .answer 0 true]
    _ (by decide) rfl (by decide) rfl
  exact absurd hagree.1 (by decide)

end Subtle.Chat
