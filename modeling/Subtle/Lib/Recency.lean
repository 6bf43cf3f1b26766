import Subtle.Lib.Snapshot
import Mathlib.Data.List.Induction

/-!
# Lists in the order of the last change

Changes are delivered one after the other, and some of the documents decode.  The list
that moves each of them to the front has the last version of every document, the most
recently delivered one first.

* `LastVersion`: what was decoded last of a document, and the changes that came later.
* `Recent`: a list of all last versions, in the order of their delivery.
* `recent_concat`: one change keeps this; `recent_follow`: **so it holds after any
  changes**.
-/

namespace Subtle.Lib

variable {κ α β : Type*}

/-- What a document decoded to last, and the changes that came later. -/
def LastVersion (decode : κ → α → Option β) (delivered : List (Change κ α)) (b : β)
    (later : List (Change κ α)) : Prop :=
  ∃ earlier change, delivered = earlier ++ change :: later ∧
    decode change.id change.document = some b ∧
    ∀ c ∈ later, c.id = change.id → decode c.id c.document = none

/-- The list has the last version of every document, once, and the later a version was
delivered the farther in front it stands. -/
structure Recent (decode : κ → α → Option β) (key : β → κ) (delivered : List (Change κ α))
    (shown : List β) : Prop where
  nodup : (shown.map key).Nodup
  mem_iff : ∀ b, b ∈ shown ↔ ∃ later, LastVersion decode delivered b later
  ordered : shown.Pairwise fun b b' => ∃ later later', LastVersion decode delivered b later ∧
    LastVersion decode delivered b' later' ∧ later.length < later'.length

variable {decode : κ → α → Option β} {key : β → κ} {delivered : List (Change κ α)} {b : β}
  {c : Change κ α} {later : List (Change κ α)}

/-- **What one more change does to the last versions**: its own is the last, and those of
other documents remain. -/
theorem lastVersion_concat (hkeyed : Keyed decode key) :
    LastVersion decode (delivered ++ [c]) b later ↔
      later = [] ∧ decode c.id c.document = some b ∨
      ∃ later', later = later' ++ [c] ∧ LastVersion decode delivered b later' ∧
        (c.id = key b → decode c.id c.document = none) := by
  constructor
  · rintro ⟨earlier, change, hsplit, hdecode, hlater⟩
    rcases List.eq_nil_or_concat' later with rfl | ⟨later', c', rfl⟩
    · obtain ⟨-, heq⟩ := List.append_inj' hsplit rfl
      obtain rfl := (List.cons.inj heq).1
      exact Or.inl ⟨rfl, hdecode⟩
    · rw [← List.cons_append, ← List.append_assoc] at hsplit
      obtain ⟨hdelivered, heq⟩ := List.append_inj' hsplit rfl
      obtain rfl := (List.cons.inj heq).1
      refine Or.inr ⟨later', rfl, ⟨earlier, change, hdelivered, hdecode, fun c' hc' => ?_⟩, ?_⟩
      · exact hlater c' (List.mem_append_left _ hc')
      · rw [hkeyed _ _ _ hdecode]
        exact hlater c (List.mem_append_right _ List.mem_cons_self)
  · rintro (⟨rfl, hdecode⟩ | ⟨later', rfl, ⟨earlier, change, rfl, hdecode, hlater⟩, hnone⟩)
    · exact ⟨delivered, c, rfl, hdecode, fun c' hc' => absurd hc' List.not_mem_nil⟩
    · refine ⟨earlier, change, by rw [List.append_assoc, List.cons_append], hdecode, ?_⟩
      intro c' hc' hid
      rcases List.mem_append.mp hc' with hc' | hc'
      · exact hlater c' hc' hid
      · obtain rfl := List.mem_singleton.mp hc'
        exact hnone (hid.trans (hkeyed _ _ _ hdecode).symm)

/-- The last version of another document, or of one that no longer decodes, remains. -/
theorem LastVersion.concat (hkeyed : Keyed decode key) (h : LastVersion decode delivered b later)
    (hc : c.id = key b → decode c.id c.document = none) :
    LastVersion decode (delivered ++ [c]) b (later ++ [c]) :=
  (lastVersion_concat hkeyed).mpr (Or.inr ⟨later, rfl, h, hc⟩)

theorem exists_lastVersion_concat (hkeyed : Keyed decode key) :
    (∃ later, LastVersion decode (delivered ++ [c]) b later) ↔
      decode c.id c.document = some b ∨ (∃ later, LastVersion decode delivered b later) ∧
        (c.id = key b → decode c.id c.document = none) := by
  constructor
  · rintro ⟨later, h⟩
    rcases (lastVersion_concat hkeyed).mp h with ⟨-, hdecode⟩ | ⟨later', -, hlast, hnone⟩
    · exact Or.inl hdecode
    · exact Or.inr ⟨⟨later', hlast⟩, hnone⟩
  · rintro (hdecode | ⟨⟨later, hlast⟩, hnone⟩)
    · exact ⟨[], (lastVersion_concat hkeyed).mpr (Or.inl ⟨rfl, hdecode⟩)⟩
    · exact ⟨later ++ [c], hlast.concat hkeyed hnone⟩

/-- **Every document of which some change decodes has a last version.** -/
theorem exists_lastVersion (hkeyed : Keyed decode key) (hc : c ∈ delivered)
    (hdecode : decode c.id c.document ≠ none) :
    ∃ b later, LastVersion decode delivered b later ∧ key b = c.id := by
  induction delivered using List.reverseRecOn with
  | nil => exact absurd hc List.not_mem_nil
  | append_singleton delivered d ih =>
    by_cases hd : d.id = c.id ∧ decode d.id d.document ≠ none
    · obtain ⟨b, hb⟩ := Option.ne_none_iff_exists'.mp hd.2
      exact ⟨b, [], (lastVersion_concat hkeyed).mpr (Or.inl ⟨rfl, hb⟩),
        (hkeyed _ _ _ hb).trans hd.1⟩
    · have hmem : c ∈ delivered := by
        rcases List.mem_append.mp hc with hc | hc
        · exact hc
        · obtain rfl := List.mem_singleton.mp hc
          exact absurd ⟨rfl, hdecode⟩ hd
      obtain ⟨b, later, hlast, hkey⟩ := ih hmem
      refine ⟨b, later ++ [d], hlast.concat hkeyed fun hid => ?_, hkey⟩
      by_contra hsome
      exact hd ⟨hid.trans hkey, hsome⟩

variable {shown : List β}

/-- The documents in the list are those of which some change decodes. -/
theorem Recent.mem_keys_iff (hkeyed : Keyed decode key) (h : Recent decode key delivered shown)
    (k : κ) : k ∈ shown.map key ↔ ∃ c ∈ delivered, c.id = k ∧ decode c.id c.document ≠ none := by
  rw [List.mem_map]
  constructor
  · rintro ⟨b, hb, rfl⟩
    obtain ⟨later, earlier, change, rfl, hdecode, -⟩ := (h.mem_iff b).mp hb
    exact ⟨change, List.mem_append_right _ List.mem_cons_self, (hkeyed _ _ _ hdecode).symm,
      hdecode ▸ Option.some_ne_none b⟩
  · rintro ⟨c, hc, rfl, hdecode⟩
    obtain ⟨b, later, hlast, hkey⟩ := exists_lastVersion hkeyed hc hdecode
    exact ⟨b, (h.mem_iff b).mpr ⟨later, hlast⟩, hkey⟩

theorem recent_nil : Recent decode key [] [] :=
  ⟨List.nodup_nil, fun _ => iff_of_false List.not_mem_nil fun ⟨_, _, _, h, _⟩ =>
    List.append_ne_nil_of_right_ne_nil _ (List.cons_ne_nil _ _) h.symm, .nil⟩

/-- A document that does not decode changes nothing. -/
theorem Recent.concat_of_none (hkeyed : Keyed decode key) (h : Recent decode key delivered shown)
    (hc : decode c.id c.document = none) : Recent decode key (delivered ++ [c]) shown := by
  refine ⟨h.nodup, fun b => ?_, h.ordered.imp ?_⟩
  · rw [h.mem_iff, exists_lastVersion_concat hkeyed, hc]
    simp
  · rintro b b' ⟨later, later', hb, hb', hlt⟩
    refine ⟨later ++ [c], later' ++ [c], hb.concat hkeyed fun _ => hc,
      hb'.concat hkeyed fun _ => hc, ?_⟩
    rw [List.length_append, List.length_append]
    omega

section

variable [DecidableEq κ]

/-- A document that decodes goes to the front. -/
theorem Recent.concat_of_some (hkeyed : Keyed decode key) (h : Recent decode key delivered shown)
    {m : β} (hc : decode c.id c.document = some m) :
    Recent decode key (delivered ++ [c]) (toFront key shown m) := by
  have hid : c.id = key m := (hkeyed _ _ _ hc).symm
  have hfilter : toFront key shown m = m :: shown.filter fun b => key b ≠ key m := by
    rw [toFront, eraseP_eq_filter h.nodup]
  have hother : ∀ b, key b ≠ key m → (c.id = key b → decode c.id c.document = none) :=
    fun b hb heq => absurd (heq.symm.trans hid) hb
  rw [hfilter]
  refine ⟨List.nodup_cons.mpr ⟨?_, h.nodup.sublist (List.filter_sublist.map key)⟩, fun b => ?_,
    List.pairwise_cons.mpr ⟨fun b hb => ?_, ?_⟩⟩
  · intro hin
    obtain ⟨b, hb, hkey⟩ := List.mem_map.mp hin
    exact absurd hkey (by simpa using (List.mem_filter.mp hb).2)
  · rw [exists_lastVersion_concat hkeyed, ← h.mem_iff, hc, List.mem_cons, List.mem_filter,
      decide_eq_true_eq, Option.some_inj, eq_comm (a := m), hid]
    refine or_congr_right (and_congr_right fun _ => ?_)
    exact ⟨fun hne heq => absurd heq.symm hne,
      fun hnone heq => Option.some_ne_none m (hnone heq.symm)⟩
  · obtain ⟨hb, hne⟩ := List.mem_filter.mp hb
    obtain ⟨later, hlater⟩ := (h.mem_iff b).mp hb
    refine ⟨[], later ++ [c], (lastVersion_concat hkeyed).mpr (Or.inl ⟨rfl, hc⟩),
      hlater.concat hkeyed (hother b (of_decide_eq_true hne)), ?_⟩
    rw [List.length_append]
    exact Nat.succ_pos _
  · refine (List.pairwise_filter.mpr (h.ordered.imp ?_))
    rintro b b' ⟨later, later', hb, hb', hlt⟩ hne hne'
    refine ⟨later ++ [c], later' ++ [c], hb.concat hkeyed (hother b (of_decide_eq_true hne)),
      hb'.concat hkeyed (hother b' (of_decide_eq_true hne')), ?_⟩
    rw [List.length_append, List.length_append]
    omega

theorem recent_concat (hkeyed : Keyed decode key) (h : Recent decode key delivered shown)
    (c : Change κ α) : Recent decode key (delivered ++ [c]) (follow decode key shown [c]) := by
  cases hc : decode c.id c.document with
  | none =>
    rw [follow_cons_of_none hc]
    exact h.concat_of_none hkeyed hc
  | some m =>
    rw [follow_cons_of_some hc]
    exact h.concat_of_some hkeyed hc

theorem follow_append (shown : List β) (changes changes' : List (Change κ α)) :
    follow decode key shown (changes ++ changes') =
      follow decode key (follow decode key shown changes) changes' := by
  rw [follow, List.filterMap_append, List.foldl_append]
  rfl

/-- **After any changes the list has the last version of every document, the most recent
one first.** -/
theorem recent_follow (hkeyed : Keyed decode key) (delivered : List (Change κ α)) :
    Recent decode key delivered (follow decode key [] delivered) := by
  induction delivered using List.reverseRecOn with
  | nil => exact recent_nil
  | append_singleton delivered c ih =>
    rw [follow_append]
    exact recent_concat hkeyed ih c

end

end Subtle.Lib
