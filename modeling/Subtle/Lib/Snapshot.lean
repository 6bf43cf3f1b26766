import Mathlib.Data.List.Perm.Basic
import Mathlib.Data.List.Nodup
import Mathlib.Data.List.Dedup
import Mathlib.Order.Basic

/-!
# Snapshots of a query, and lists that follow them

The result of a query is a list of documents with their ids.  A listener is given
the changes from each result to the next: the removed documents, then the added
and then the modified ones, each kind in the order of its result.

A client decodes the documents, where it can, and keeps a list of what they decode
to.

* `follow`: such a list, which moves each changed document to the front.
* `follow_eq_iff`: **the list that follows a result in an order shows the next
  result in that order exactly when the changes are `Tidy`**.
* `append_eq_iff`: **the list that appends what is added to a result in order shows the
  next result in order exactly when the changes are `AppendOnly`**.
-/

namespace Subtle.Lib

variable {κ α β : Type*}

inductive ChangeKind where
  | added
  | modified
  | removed
  deriving DecidableEq, Repr

/-- A changed document; a removed one as it was last. -/
structure Change (κ α : Type*) where
  kind : ChangeKind
  id : κ
  document : α
  deriving DecidableEq

/-! ### The changes between two results -/

section Changes

variable [DecidableEq κ]

def removedDocuments (old new : List (κ × α)) : List (κ × α) :=
  old.filter fun d => d.1 ∉ new.map Prod.fst

def addedDocuments (old new : List (κ × α)) : List (κ × α) :=
  new.filter fun d => d.1 ∉ old.map Prod.fst

/-- The documents as changes of one kind. -/
def asChanges (kind : ChangeKind) (docs : List (κ × α)) : List (Change κ α) :=
  docs.map fun d => ⟨kind, d.1, d.2⟩

variable {old new : List (κ × α)} {d : κ × α}

theorem mem_removedDocuments : d ∈ removedDocuments old new ↔ d ∈ old ∧ d.1 ∉ new.map Prod.fst := by
  simp only [removedDocuments, List.mem_filter, decide_eq_true_eq]

theorem mem_addedDocuments : d ∈ addedDocuments old new ↔ d ∈ new ∧ d.1 ∉ old.map Prod.fst := by
  simp only [addedDocuments, List.mem_filter, decide_eq_true_eq]

variable [DecidableEq α]

def modifiedDocuments (old new : List (κ × α)) : List (κ × α) :=
  new.filter fun d => d.1 ∈ old.map Prod.fst ∧ d ∉ old

def unchangedDocuments (old new : List (κ × α)) : List (κ × α) := old.filter (· ∈ new)

def documentChanges (old new : List (κ × α)) : List (Change κ α) :=
  asChanges .removed (removedDocuments old new) ++ asChanges .added (addedDocuments old new) ++
    asChanges .modified (modifiedDocuments old new)

theorem mem_modifiedDocuments :
    d ∈ modifiedDocuments old new ↔ d ∈ new ∧ d.1 ∈ old.map Prod.fst ∧ d ∉ old := by
  simp only [modifiedDocuments, List.mem_filter, decide_eq_true_eq]

theorem mem_unchangedDocuments : d ∈ unchangedDocuments old new ↔ d ∈ old ∧ d ∈ new := by
  simp only [unchangedDocuments, List.mem_filter, decide_eq_true_eq]

/-- At the first result every document is added. -/
theorem documentChanges_nil (new : List (κ × α)) :
    documentChanges [] new = asChanges .added new := by
  simp [documentChanges, removedDocuments, addedDocuments, modifiedDocuments, asChanges]

/-- The next result has the unchanged, the added and the modified documents. -/
theorem perm_documents (hold : old.Nodup) (hnew : new.Nodup) :
    (unchangedDocuments old new ++ addedDocuments old new ++ modifiedDocuments old new).Perm
      new := by
  have hdisj : (unchangedDocuments old new ++ addedDocuments old new ++
      modifiedDocuments old new).Nodup := by
    refine List.nodup_append'.mpr ⟨List.nodup_append'.mpr ⟨hold.filter _, hnew.filter _, ?_⟩,
      hnew.filter _, ?_⟩
    · intro d h₁ h₂
      exact (mem_addedDocuments.mp h₂).2
        (List.mem_map_of_mem (mem_unchangedDocuments.mp h₁).1)
    · intro d h₁ h₂
      obtain ⟨-, hid, hnot⟩ := mem_modifiedDocuments.mp h₂
      rcases List.mem_append.mp h₁ with h₁ | h₁
      · exact hnot (mem_unchangedDocuments.mp h₁).1
      · exact (mem_addedDocuments.mp h₁).2 hid
  apply (List.perm_ext_iff_of_nodup hdisj hnew).mpr
  intro d
  rw [List.mem_append, List.mem_append, mem_unchangedDocuments, mem_addedDocuments,
    mem_modifiedDocuments]
  constructor
  · rintro ((h | h) | h)
    · exact h.2
    · exact h.1
    · exact h.1
  · intro h
    by_cases hid : d.1 ∈ old.map Prod.fst
    · by_cases hd : d ∈ old
      · exact Or.inl (Or.inl ⟨hd, h⟩)
      · exact Or.inr ⟨h, hid, hd⟩
    · exact Or.inl (Or.inr ⟨h, hid⟩)

end Changes

/-! ### Moving to the front -/

section ToFront

variable [DecidableEq κ] (key : β → κ)

/-- The first entry with the key of `b` is removed, and `b` inserted at the front. -/
def toFront (shown : List β) (b : β) : List β := b :: shown.eraseP fun x => key x = key b

variable {key}

theorem eraseP_eq_filter {shown : List β} (h : (shown.map key).Nodup) (k : κ) :
    (shown.eraseP fun x => key x = k) = shown.filter fun x => key x ≠ k := by
  induction shown with
  | nil => rfl
  | cons x shown ih =>
    obtain ⟨hx, hrest⟩ := List.nodup_cons.mp h
    by_cases hk : key x = k
    · have hkeep : shown.filter (fun y => decide (key y ≠ k)) = shown := by
        apply List.filter_eq_self.mpr
        intro y hy
        rw [decide_eq_true_eq]
        intro hyk
        exact hx (hk.trans hyk.symm ▸ List.mem_map_of_mem hy)
      rw [List.eraseP_cons_of_pos (by simpa using hk), List.filter_cons_of_neg (by simpa using hk),
        hkeep]
    · rw [List.eraseP_cons_of_neg (by simpa using hk), List.filter_cons_of_pos (by simpa using hk),
        ih hrest]

/-- **Entries with different keys, moved to the front one after the other**, come to
stand before the entries with other keys, the last of them first. -/
theorem foldl_toFront {bs : List β} (hbs : (bs.map key).Nodup) {shown : List β}
    (hshown : (shown.map key).Nodup) :
    bs.foldl (toFront key) shown = bs.reverse ++ shown.filter fun x => key x ∉ bs.map key := by
  induction bs generalizing shown with
  | nil => simp
  | cons b bs ih =>
    obtain ⟨hb, hrest⟩ := List.nodup_cons.mp hbs
    have hmoved : toFront key shown b = b :: shown.filter fun x => key x ≠ key b := by
      rw [toFront, eraseP_eq_filter hshown]
    have hkeys : ((b :: shown.filter fun x => decide (key x ≠ key b)).map key).Nodup := by
      refine List.nodup_cons.mpr ⟨?_, hshown.sublist (List.filter_sublist.map key)⟩
      intro hin
      obtain ⟨x, hx, hkey⟩ := List.mem_map.mp hin
      exact absurd hkey (by simpa using (List.mem_filter.mp hx).2)
    rw [List.foldl_cons, hmoved, ih hrest hkeys, List.filter_cons_of_pos (by simpa using hb),
      List.filter_filter, List.reverse_cons, List.append_assoc, List.singleton_append]
    congr 2
    apply List.filter_congr
    intro x _
    simp only [List.map_cons, List.mem_cons, not_or, Bool.decide_and, Bool.and_comm]

end ToFront

/-! ### Lists of what the documents decode to -/

section Follow

variable (decode : κ → α → Option β)

/-- What the documents decode to, in their order. -/
def decoded (docs : List (κ × α)) : List β := docs.filterMap fun d => decode d.1 d.2

variable {decode}

theorem mem_decoded {docs : List (κ × α)} {b : β} :
    b ∈ decoded decode docs ↔ ∃ d ∈ docs, decode d.1 d.2 = some b := List.mem_filterMap

theorem decoded_cons_of_none {d : κ × α} {docs : List (κ × α)} (h : decode d.1 d.2 = none) :
    decoded decode (d :: docs) = decoded decode docs :=
  List.filterMap_cons_none (f := fun d : κ × α => decode d.1 d.2) h

theorem decoded_cons_of_some {d : κ × α} {docs : List (κ × α)} {b : β}
    (h : decode d.1 d.2 = some b) : decoded decode (d :: docs) = b :: decoded decode docs :=
  List.filterMap_cons_some (f := fun d : κ × α => decode d.1 d.2) h

theorem decoded_append (docs docs' : List (κ × α)) :
    decoded decode (docs ++ docs') = decoded decode docs ++ decoded decode docs' :=
  List.filterMap_append

theorem filterMap_asChanges (kind : ChangeKind) (docs : List (κ × α)) :
    (asChanges kind docs).filterMap (fun c => decode c.id c.document) = decoded decode docs := by
  rw [asChanges, List.filterMap_map]
  rfl

variable {key : β → κ}

/-- A document decodes to an entry with its id as the key. -/
def Keyed (decode : κ → α → Option β) (key : β → κ) : Prop :=
  ∀ k a b, decode k a = some b → key b = k

/-- Every entry is that of one of the documents. -/
theorem exists_of_mem_decoded (hkeyed : Keyed decode key) {docs : List (κ × α)} {b : β}
    (hb : b ∈ decoded decode docs) : ∃ d ∈ docs, decode d.1 d.2 = some b ∧ key b = d.1 := by
  obtain ⟨d, hd, hdecode⟩ := mem_decoded.mp hb
  exact ⟨d, hd, hdecode, hkeyed _ _ _ hdecode⟩

theorem nodup_keys_decoded (hkeyed : Keyed decode key) {docs : List (κ × α)}
    (hdocs : (docs.map Prod.fst).Nodup) : ((decoded decode docs).map key).Nodup := by
  induction docs with
  | nil => exact List.nodup_nil
  | cons d docs ih =>
    obtain ⟨hd, hrest⟩ := List.nodup_cons.mp hdocs
    cases hdecode : decode d.1 d.2 with
    | none =>
      rw [decoded_cons_of_none hdecode]
      exact ih hrest
    | some b =>
      rw [decoded_cons_of_some hdecode]
      refine List.nodup_cons.mpr ⟨?_, ih hrest⟩
      rw [hkeyed _ _ _ hdecode]
      intro hin
      obtain ⟨b', hb', hkey⟩ := List.mem_map.mp hin
      obtain ⟨d', hd', hdecode'⟩ := mem_decoded.mp hb'
      rw [hkeyed _ _ _ hdecode'] at hkey
      exact hd (hkey ▸ List.mem_map_of_mem hd')

/-- The order by a value, and by key where the values are equal. -/
def LexBefore {τ : Type*} [LT τ] [LT κ] (value : β → τ) (key : β → κ) (b b' : β) : Prop :=
  value b < value b' ∨ value b = value b' ∧ key b < key b'

theorem LexBefore.asymm {τ : Type*} [Preorder τ] [Preorder κ] {value : β → τ} {b b' : β}
    (h : LexBefore value key b b') : ¬ LexBefore value key b' b := by
  rintro (h' | ⟨heq', h'⟩)
  · rcases h with h | ⟨heq, -⟩
    · exact lt_asymm h h'
    · exact lt_irrefl _ (heq ▸ h')
  · rcases h with h | ⟨-, h⟩
    · exact lt_irrefl _ (heq' ▸ h)
    · exact lt_asymm h h'

/-- Entries stand in the order of a value if the documents do that have one. -/
theorem pairwise_decoded {τ : Type*} [LT τ] [LT κ] {value : β → τ} {valueOf : α → Option τ}
    (hkeyed : Keyed decode key) (hvalue : ∀ k a b, decode k a = some b → valueOf a = some (value b))
    {docs : List (κ × α)} (hdocs : docs.Pairwise fun d e => ∀ s ∈ valueOf d.2, ∀ t ∈ valueOf e.2,
      s < t ∨ s = t ∧ d.1 < e.1) : (decoded decode docs).Pairwise (LexBefore value key) := by
  rw [decoded, List.pairwise_filterMap]
  refine hdocs.imp ?_
  intro d e hde b hb b' hb'
  have horder := hde (value b) (hvalue _ _ _ hb) (value b') (hvalue _ _ _ hb')
  rwa [← hkeyed _ _ _ hb, ← hkeyed _ _ _ hb'] at horder

variable [DecidableEq κ]

/-- Every changed document that decodes is moved to the front, whatever its kind. -/
def follow (decode : κ → α → Option β) (key : β → κ) (shown : List β)
    (changes : List (Change κ α)) : List β :=
  (changes.filterMap fun c => decode c.id c.document).foldl (toFront key) shown

theorem follow_cons_of_none {c : Change κ α} (h : decode c.id c.document = none)
    (shown : List β) (changes : List (Change κ α)) :
    follow decode key shown (c :: changes) = follow decode key shown changes := by
  rw [follow, List.filterMap_cons_none (f := fun c : Change κ α => decode c.id c.document) h]
  rfl

theorem follow_cons_of_some {c : Change κ α} {b : β} (h : decode c.id c.document = some b)
    (shown : List β) (changes : List (Change κ α)) :
    follow decode key shown (c :: changes) = follow decode key (toFront key shown b) changes := by
  rw [follow, List.filterMap_cons_some (f := fun c : Change κ α => decode c.id c.document) h]
  rfl

/-- At the first result the list shows what it decodes to, the last of it first. -/
theorem follow_nil_asChanges (hkeyed : Keyed decode key) (kind : ChangeKind)
    {docs : List (κ × α)} (hdocs : (docs.map Prod.fst).Nodup) :
    follow decode key [] (asChanges kind docs) = (decoded decode docs).reverse := by
  have hempty : (([] : List β).map key).Nodup := List.nodup_nil
  rw [follow, filterMap_asChanges, foldl_toFront (nodup_keys_decoded hkeyed hdocs) hempty,
    List.filter_nil, List.append_nil]

variable [DecidableEq α]

/-- The changes that a list kept by moving to the front can follow: nothing that was
shown disappears, and what is changed belongs behind what is not. -/
structure Tidy (decode : κ → α → Option β) (before : β → β → Prop) (old new : List (κ × α)) :
    Prop where
  removed : decoded decode (removedDocuments old new) = []
  decodes : ∀ d ∈ modifiedDocuments old new, decode d.1 d.2 = none →
    ∀ e ∈ old, e.1 = d.1 → decode e.1 e.2 = none
  added_last : ∀ b ∈ decoded decode (unchangedDocuments old new),
    ∀ b' ∈ decoded decode (addedDocuments old new), before b b'
  modified_last : ∀ b ∈ decoded decode (unchangedDocuments old new),
    ∀ b' ∈ decoded decode (modifiedDocuments old new), before b b'
  modified_after_added : ∀ b ∈ decoded decode (addedDocuments old new),
    ∀ b' ∈ decoded decode (modifiedDocuments old new), before b b'

instance {before : β → β → Prop} [DecidableEq β] [∀ b b', Decidable (before b b')]
    (old new : List (κ × α)) : Decidable (Tidy decode before old new) :=
  decidable_of_iff
    (decoded decode (removedDocuments old new) = [] ∧
      (∀ d ∈ modifiedDocuments old new, decode d.1 d.2 = none →
        ∀ e ∈ old, e.1 = d.1 → decode e.1 e.2 = none) ∧
      (∀ b ∈ decoded decode (unchangedDocuments old new),
        ∀ b' ∈ decoded decode (addedDocuments old new), before b b') ∧
      (∀ b ∈ decoded decode (unchangedDocuments old new),
        ∀ b' ∈ decoded decode (modifiedDocuments old new), before b b') ∧
      ∀ b ∈ decoded decode (addedDocuments old new),
        ∀ b' ∈ decoded decode (modifiedDocuments old new), before b b')
    ⟨fun ⟨h₁, h₂, h₃, h₄, h₅⟩ => ⟨h₁, h₂, h₃, h₄, h₅⟩,
      fun h => ⟨h.removed, h.decodes, h.added_last, h.modified_last, h.modified_after_added⟩⟩

variable {before : β → β → Prop} {old new : List (κ × α)}

/-- What the changed documents decode to, in the order of the changes. -/
def touched (decode : κ → α → Option β) (old new : List (κ × α)) : List β :=
  decoded decode (removedDocuments old new) ++ decoded decode (addedDocuments old new) ++
    decoded decode (modifiedDocuments old new)

theorem nodup_changed (hold : (old.map Prod.fst).Nodup) (hnew : (new.map Prod.fst).Nodup) :
    ((removedDocuments old new ++ addedDocuments old new ++
      modifiedDocuments old new).map Prod.fst).Nodup := by
  rw [List.map_append, List.map_append]
  refine List.nodup_append'.mpr ⟨List.nodup_append'.mpr
    ⟨hold.sublist (List.filter_sublist.map _), hnew.sublist (List.filter_sublist.map _), ?_⟩,
    hnew.sublist (List.filter_sublist.map _), ?_⟩
  · intro k h₁ h₂
    obtain ⟨d, hd, rfl⟩ := List.mem_map.mp h₁
    obtain ⟨e, he, hk⟩ := List.mem_map.mp h₂
    exact (mem_removedDocuments.mp hd).2 (hk ▸ List.mem_map_of_mem (mem_addedDocuments.mp he).1)
  · intro k h₁ h₂
    obtain ⟨e, he, rfl⟩ := List.mem_map.mp h₂
    obtain ⟨henew, heold, -⟩ := mem_modifiedDocuments.mp he
    rcases List.mem_append.mp h₁ with h₁ | h₁
    · obtain ⟨d, hd, hk⟩ := List.mem_map.mp h₁
      exact (mem_removedDocuments.mp hd).2 (hk ▸ List.mem_map_of_mem henew)
    · obtain ⟨d, hd, hk⟩ := List.mem_map.mp h₁
      exact (mem_addedDocuments.mp hd).2 (hk ▸ heold)

theorem touched_eq (decode : κ → α → Option β) (old new : List (κ × α)) :
    touched decode old new = decoded decode (removedDocuments old new ++ addedDocuments old new ++
      modifiedDocuments old new) := by
  rw [touched, decoded_append, decoded_append]

theorem follow_eq (decode : κ → α → Option β) (key : β → κ) (shown : List β) :
    follow decode key shown (documentChanges old new) =
      (touched decode old new).foldl (toFront key) shown := by
  rw [follow, documentChanges, List.filterMap_append, List.filterMap_append, filterMap_asChanges,
    filterMap_asChanges, filterMap_asChanges, touched]

/-- The entries that no change touches. -/
def untouched (decode : κ → α → Option β) (key : β → κ) (old new : List (κ × α)) : List β :=
  (decoded decode old).filter fun b => key b ∉ (touched decode old new).map key

/-- **What a step of following does**, read from the back. -/
theorem follow_reverse (hkeyed : Keyed decode key) (hold : (old.map Prod.fst).Nodup)
    (hnew : (new.map Prod.fst).Nodup) :
    (follow decode key (decoded decode old).reverse (documentChanges old new)).reverse =
      untouched decode key old new ++ touched decode old new := by
  have hchanged : ((touched decode old new).map key).Nodup := by
    rw [touched_eq]
    exact nodup_keys_decoded hkeyed (nodup_changed hold hnew)
  have hshown : ((decoded decode old).reverse.map key).Nodup := by
    rw [List.map_reverse, List.nodup_reverse]
    exact nodup_keys_decoded hkeyed hold
  rw [follow_eq, foldl_toFront hchanged hshown, List.reverse_append, List.reverse_reverse,
    ← List.filter_reverse, List.reverse_reverse, untouched]

/-- An entry whose document is in the new result too is not touched, nor is one whose
document no longer decodes. -/
theorem key_not_mem_touched (hkeyed : Keyed decode key) (hnew : (new.map Prod.fst).Nodup)
    {d e : κ × α} {b : β} (hd : d ∈ old) (hdecode : decode d.1 d.2 = some b) (he : e ∈ new)
    (hid : e.1 = d.1) (hsame : e = d ∨ decode e.1 e.2 = none) :
    key b ∉ (touched decode old new).map key := by
  rw [touched_eq]
  intro hin
  obtain ⟨b', hb', hkey⟩ := List.mem_map.mp hin
  obtain ⟨d', hd', hdecode'⟩ := mem_decoded.mp hb'
  have hid' : d'.1 = d.1 := by rw [← hkeyed _ _ _ hdecode', hkey, hkeyed _ _ _ hdecode]
  rcases List.mem_append.mp hd' with hd' | hd'
  · rcases List.mem_append.mp hd' with hd' | hd'
    · apply (mem_removedDocuments.mp hd').2
      rw [hid', ← hid]
      exact List.mem_map_of_mem he
    · apply (mem_addedDocuments.mp hd').2
      rw [hid']
      exact List.mem_map_of_mem hd
  · obtain ⟨hd'new, -, hd'old⟩ := mem_modifiedDocuments.mp hd'
    obtain rfl := List.inj_on_of_nodup_map hnew hd'new he (hid'.trans hid.symm)
    rcases hsame with rfl | hnone
    · exact hd'old hd
    · rw [hnone] at hdecode'
      exact absurd hdecode' (Option.some_ne_none _).symm

/-- Where nothing that was shown disappears, an entry is touched when its document
changes. -/
theorem key_mem_touched (hkeyed : Keyed decode key) (hold : (old.map Prod.fst).Nodup)
    (hremoved : decoded decode (removedDocuments old new) = [])
    (hdecodes : ∀ d ∈ modifiedDocuments old new, decode d.1 d.2 = none →
      ∀ e ∈ old, e.1 = d.1 → decode e.1 e.2 = none)
    {d : κ × α} {b : β} (hd : d ∈ old) (hdecode : decode d.1 d.2 = some b) (hnot : d ∉ new) :
    key b ∈ (touched decode old new).map key := by
  by_cases hid : d.1 ∈ new.map Prod.fst
  · obtain ⟨e, he, heid⟩ := List.mem_map.mp hid
    have hmodified : e ∈ modifiedDocuments old new := by
      refine mem_modifiedDocuments.mpr ⟨he, heid ▸ List.mem_map_of_mem hd, ?_⟩
      intro heold
      exact hnot (List.inj_on_of_nodup_map hold heold hd heid ▸ he)
    cases hdecode' : decode e.1 e.2 with
    | none =>
      have hnone := hdecodes e hmodified hdecode' d hd heid.symm
      exact absurd (hdecode.symm.trans hnone) (Option.some_ne_none b)
    | some b' =>
      refine List.mem_map.mpr ⟨b', ?_, ?_⟩
      · exact List.mem_append_right _ (mem_decoded.mpr ⟨e, hmodified, hdecode'⟩)
      · rw [hkeyed _ _ _ hdecode', hkeyed _ _ _ hdecode, heid]
  · have hb : b ∈ decoded decode (removedDocuments old new) :=
      mem_decoded.mpr ⟨d, mem_removedDocuments.mpr ⟨hd, hid⟩, hdecode⟩
    rw [hremoved] at hb
    exact absurd hb List.not_mem_nil

/-- Where nothing that was shown disappears, the untouched entries are those of the
unchanged documents. -/
theorem untouched_eq (hkeyed : Keyed decode key) (hold : (old.map Prod.fst).Nodup)
    (hnew : (new.map Prod.fst).Nodup)
    (hremoved : decoded decode (removedDocuments old new) = [])
    (hdecodes : ∀ d ∈ modifiedDocuments old new, decode d.1 d.2 = none →
      ∀ e ∈ old, e.1 = d.1 → decode e.1 e.2 = none) :
    untouched decode key old new = decoded decode (unchangedDocuments old new) := by
  rw [untouched, decoded, decoded, unchangedDocuments, List.filter_filterMap,
    List.filterMap_filter]
  apply List.filterMap_congr
  intro d hd
  cases hdecode : decode d.1 d.2 with
  | none => simp
  | some b =>
    by_cases hnewd : d ∈ new
    · have hkey := key_not_mem_touched hkeyed hnew hd hdecode hnewd rfl (Or.inl rfl)
      rw [if_pos (decide_eq_true hnewd)]
      exact Option.filter_some_pos (decide_eq_true hkey)
    · have hkey := key_mem_touched hkeyed hold hremoved hdecodes hd hdecode hnewd
      rw [if_neg (by simpa using hnewd)]
      exact Option.filter_some_neg (by simpa using hkey)

/-- What the next result decodes to, as unchanged and touched entries in some order. -/
theorem perm_decoded (hold : (old.map Prod.fst).Nodup) (hnew : (new.map Prod.fst).Nodup) :
    (decoded decode (unchangedDocuments old new) ++ decoded decode (addedDocuments old new) ++
      decoded decode (modifiedDocuments old new)).Perm (decoded decode new) := by
  rw [← decoded_append, ← decoded_append]
  exact (perm_documents (List.Nodup.of_map _ hold) (List.Nodup.of_map _ hnew)).filterMap _

theorem pairwise_of_tidy (htidy : Tidy decode before old new)
    (hold : (decoded decode old).Pairwise before) (hnew : (decoded decode new).Pairwise before) :
    (decoded decode (unchangedDocuments old new) ++ decoded decode (addedDocuments old new) ++
      decoded decode (modifiedDocuments old new)).Pairwise before := by
  refine List.pairwise_append.mpr ⟨List.pairwise_append.mpr
    ⟨hold.sublist ?_, hnew.sublist ?_, htidy.added_last⟩, hnew.sublist ?_, ?_⟩
  · exact List.filter_sublist.filterMap _
  · exact List.filter_sublist.filterMap _
  · exact List.filter_sublist.filterMap _
  · intro b hb b' hb'
    rcases List.mem_append.mp hb with hb | hb
    · exact htidy.modified_last b hb b' hb'
    · exact htidy.modified_after_added b hb b' hb'

theorem tidy_of_eq (hkeyed : Keyed decode key) (hnew : (new.map Prod.fst).Nodup)
    (hsnew : (decoded decode new).Pairwise before)
    (h : untouched decode key old new ++ touched decode old new = decoded decode new) :
    Tidy decode before old new := by
  have hun : ∀ {b}, b ∈ untouched decode key old new → b ∈ decoded decode new := fun hb =>
    h ▸ List.mem_append_left _ hb
  have htouched : ∀ {b}, b ∈ touched decode old new → b ∈ decoded decode new := fun hb =>
    h ▸ List.mem_append_right _ hb
  have hunchanged : ∀ b ∈ decoded decode (unchangedDocuments old new),
      b ∈ untouched decode key old new := by
    intro b hb
    obtain ⟨d, hd, hdecode⟩ := mem_decoded.mp hb
    obtain ⟨hdold, hdnew⟩ := mem_unchangedDocuments.mp hd
    refine List.mem_filter.mpr ⟨mem_decoded.mpr ⟨d, hdold, hdecode⟩, decide_eq_true ?_⟩
    exact key_not_mem_touched hkeyed hnew hdold hdecode hdnew rfl (Or.inl rfl)
  rw [← h, touched] at hsnew
  obtain ⟨-, hsorted, hacross⟩ := List.pairwise_append.mp hsnew
  constructor
  case removed =>
    apply List.eq_nil_iff_forall_not_mem.mpr
    intro b hb
    obtain ⟨d, hd, -, hkey⟩ := exists_of_mem_decoded hkeyed hb
    obtain ⟨e, he, -, hkey'⟩ := exists_of_mem_decoded hkeyed
      (htouched (List.mem_append_left _ (List.mem_append_left _ hb)))
    apply (mem_removedDocuments.mp hd).2
    rw [← hkey, hkey']
    exact List.mem_map_of_mem he
  case decodes =>
    intro d hd hnone e he hid
    by_contra hsome
    obtain ⟨b, hdecode⟩ := Option.ne_none_iff_exists'.mp hsome
    have hdnew := (mem_modifiedDocuments.mp hd).1
    have hkeep : b ∈ untouched decode key old new := by
      refine List.mem_filter.mpr ⟨mem_decoded.mpr ⟨e, he, hdecode⟩, decide_eq_true ?_⟩
      exact key_not_mem_touched hkeyed hnew he hdecode hdnew hid.symm (Or.inr hnone)
    obtain ⟨f, hf, hdecode', hkey⟩ := exists_of_mem_decoded hkeyed (hun hkeep)
    obtain rfl := List.inj_on_of_nodup_map hnew hf hdnew
      (hkey.symm.trans ((hkeyed _ _ _ hdecode).trans hid))
    exact Option.some_ne_none b (hdecode'.symm.trans hnone)
  case added_last =>
    intro b hb b' hb'
    exact hacross b (hunchanged b hb) b'
      (List.mem_append_left _ (List.mem_append_right _ hb'))
  case modified_last =>
    intro b hb b' hb'
    exact hacross b (hunchanged b hb) b' (List.mem_append_right _ hb')
  case modified_after_added =>
    intro b hb b' hb'
    exact (List.pairwise_append.mp hsorted).2.2 b (List.mem_append_right _ hb) b' hb'

/-- **The list that follows a result shows the next one exactly when the changes are
tidy.** -/
theorem follow_eq_iff (hkeyed : Keyed decode key)
    (hanti : ∀ b b', before b b' → before b' b → b = b') (hold : (old.map Prod.fst).Nodup)
    (hnew : (new.map Prod.fst).Nodup) (hsold : (decoded decode old).Pairwise before)
    (hsnew : (decoded decode new).Pairwise before) :
    follow decode key (decoded decode old).reverse (documentChanges old new) =
      (decoded decode new).reverse ↔ Tidy decode before old new := by
  rw [← List.reverse_inj, follow_reverse hkeyed hold hnew, List.reverse_reverse]
  constructor
  · exact tidy_of_eq hkeyed hnew hsnew
  · intro htidy
    rw [untouched_eq hkeyed hold hnew htidy.removed htidy.decodes, touched, htidy.removed,
      List.nil_append, ← List.append_assoc]
    exact (perm_decoded hold hnew).eq_of_pairwise (fun b b' _ _ => hanti b b')
      (pairwise_of_tidy htidy hsold hsnew) hsnew

end Follow

/-! ### Lists that append what is added -/

section Append

variable {decode : κ → α → Option β} {key : β → κ} {before : β → β → Prop}

/-- What the added documents among the changes decode to, in the order of the changes. -/
def decodedAdded (decode : κ → α → Option β) (changes : List (Change κ α)) : List β :=
  changes.filterMap fun c => if c.kind = .added then decode c.id c.document else none

theorem decodedAdded_cons_of_added {c : Change κ α} (h : c.kind = .added)
    (changes : List (Change κ α)) : decodedAdded decode (c :: changes) =
      (decode c.id c.document).toList ++ decodedAdded decode changes := by
  rw [decodedAdded, decodedAdded, List.filterMap_cons, if_pos h]
  cases decode c.id c.document <;> rfl

theorem decodedAdded_cons_of_ne {c : Change κ α} (h : c.kind ≠ .added)
    (changes : List (Change κ α)) :
    decodedAdded decode (c :: changes) = decodedAdded decode changes := by
  rw [decodedAdded, decodedAdded, List.filterMap_cons, if_neg h]

theorem decodedAdded_append (changes changes' : List (Change κ α)) :
    decodedAdded decode (changes ++ changes') =
      decodedAdded decode changes ++ decodedAdded decode changes' := List.filterMap_append

theorem decodedAdded_asChanges (docs : List (κ × α)) :
    decodedAdded decode (asChanges .added docs) = decoded decode docs := by
  rw [decodedAdded, asChanges, List.filterMap_map]
  rfl

theorem decodedAdded_asChanges_of_ne {kind : ChangeKind} (hkind : kind ≠ .added)
    (docs : List (κ × α)) : decodedAdded decode (asChanges kind docs) = [] := by
  rw [decodedAdded, asChanges, List.filterMap_map, List.filterMap_eq_nil_iff]
  intro d _
  exact if_neg hkind

variable [DecidableEq κ] {old new : List (κ × α)}

/-- What was shown and what is added have different keys. -/
theorem nodup_append_added (hkeyed : Keyed decode key) (hold : (old.map Prod.fst).Nodup)
    (hnew : (new.map Prod.fst).Nodup) :
    (decoded decode old ++ decoded decode (addedDocuments old new)).Nodup := by
  rw [← decoded_append]
  refine List.Nodup.of_map key (nodup_keys_decoded hkeyed ?_)
  rw [List.map_append]
  refine List.nodup_append'.mpr ⟨hold, hnew.sublist (List.filter_sublist.map _), ?_⟩
  intro k hk hk'
  obtain ⟨d, hd, rfl⟩ := List.mem_map.mp hk'
  exact (mem_addedDocuments.mp hd).2 hk

variable [DecidableEq α]

theorem decodedAdded_documentChanges : decodedAdded decode (documentChanges old new) =
    decoded decode (addedDocuments old new) := by
  rw [documentChanges, decodedAdded_append, decodedAdded_append, decodedAdded_asChanges,
    decodedAdded_asChanges_of_ne (by decide), decodedAdded_asChanges_of_ne (by decide),
    List.nil_append, List.append_nil]

/-- The changes that a list kept by appending can follow: nothing that was shown
disappears or changes, and what is added belongs behind it. -/
structure AppendOnly (decode : κ → α → Option β) (before : β → β → Prop)
    (old new : List (κ × α)) : Prop where
  removed : decoded decode (removedDocuments old new) = []
  modified : ∀ d ∈ modifiedDocuments old new, ∀ e ∈ old, e.1 = d.1 →
    decode e.1 e.2 = decode d.1 d.2
  added_last : ∀ b ∈ decoded decode old, ∀ b' ∈ decoded decode (addedDocuments old new),
    before b b'

instance [DecidableEq β] [∀ b b', Decidable (before b b')] (old new : List (κ × α)) :
    Decidable (AppendOnly decode before old new) :=
  decidable_of_iff
    (decoded decode (removedDocuments old new) = [] ∧
      (∀ d ∈ modifiedDocuments old new, ∀ e ∈ old, e.1 = d.1 →
        decode e.1 e.2 = decode d.1 d.2) ∧
      ∀ b ∈ decoded decode old, ∀ b' ∈ decoded decode (addedDocuments old new), before b b')
    ⟨fun ⟨h₁, h₂, h₃⟩ => ⟨h₁, h₂, h₃⟩, fun h => ⟨h.removed, h.modified, h.added_last⟩⟩

/-- Where nothing disappears or changes, the next result has what was shown and what is
added. -/
theorem AppendOnly.mem_decoded_iff (h : AppendOnly decode before old new)
    (hold : (old.map Prod.fst).Nodup) {b : β} : b ∈ decoded decode new ↔
      b ∈ decoded decode old ∨ b ∈ decoded decode (addedDocuments old new) := by
  constructor
  · intro hb
    obtain ⟨d, hd, hdecode⟩ := mem_decoded.mp hb
    by_cases hid : d.1 ∈ old.map Prod.fst
    · obtain ⟨e, he, heid⟩ := List.mem_map.mp hid
      by_cases hdold : d ∈ old
      · exact Or.inl (mem_decoded.mpr ⟨d, hdold, hdecode⟩)
      · have hsame := h.modified d (mem_modifiedDocuments.mpr ⟨hd, hid, hdold⟩) e he heid
        exact Or.inl (mem_decoded.mpr ⟨e, he, hsame.trans hdecode⟩)
    · exact Or.inr (mem_decoded.mpr ⟨d, mem_addedDocuments.mpr ⟨hd, hid⟩, hdecode⟩)
  · rintro (hb | hb)
    · obtain ⟨e, he, hdecode⟩ := mem_decoded.mp hb
      by_cases hid : e.1 ∈ new.map Prod.fst
      · obtain ⟨d, hd, hdid⟩ := List.mem_map.mp hid
        by_cases hdold : d ∈ old
        · obtain rfl := List.inj_on_of_nodup_map hold hdold he hdid
          exact mem_decoded.mpr ⟨d, hd, hdecode⟩
        · have hin : d.1 ∈ old.map Prod.fst := hdid ▸ List.mem_map_of_mem he
          have hsame := h.modified d (mem_modifiedDocuments.mpr ⟨hd, hin, hdold⟩) e he hdid.symm
          exact mem_decoded.mpr ⟨d, hd, hsame.symm.trans hdecode⟩
      · have hremoved : b ∈ decoded decode (removedDocuments old new) :=
          mem_decoded.mpr ⟨e, mem_removedDocuments.mpr ⟨he, hid⟩, hdecode⟩
        rw [h.removed] at hremoved
        exact absurd hremoved List.not_mem_nil
    · obtain ⟨d, hd, hdecode⟩ := mem_decoded.mp hb
      exact mem_decoded.mpr ⟨d, (mem_addedDocuments.mp hd).1, hdecode⟩

theorem appendOnly_of_eq (hkeyed : Keyed decode key) (hold : (old.map Prod.fst).Nodup)
    (hnew : (new.map Prod.fst).Nodup) (hsnew : (decoded decode new).Pairwise before)
    (h : decoded decode old ++ decoded decode (addedDocuments old new) = decoded decode new) :
    AppendOnly decode before old new := by
  have hkeep : ∀ {b}, b ∈ decoded decode old → b ∈ decoded decode new := fun hb =>
    h ▸ List.mem_append_left _ hb
  constructor
  case removed =>
    apply List.eq_nil_iff_forall_not_mem.mpr
    intro b hb
    obtain ⟨d, hd, hdecode⟩ := mem_decoded.mp hb
    obtain ⟨hdold, hdnew⟩ := mem_removedDocuments.mp hd
    obtain ⟨e, he, -, hkey⟩ := exists_of_mem_decoded hkeyed
      (hkeep (mem_decoded.mpr ⟨d, hdold, hdecode⟩))
    apply hdnew
    rw [← hkeyed _ _ _ hdecode, hkey]
    exact List.mem_map_of_mem he
  case modified =>
    intro d hd e he hid
    obtain ⟨hdnew, hdold, -⟩ := mem_modifiedDocuments.mp hd
    apply Option.ext
    intro b
    constructor
    · intro hdecode
      obtain ⟨f, hf, hdecode', hkey⟩ := exists_of_mem_decoded hkeyed
        (hkeep (mem_decoded.mpr ⟨e, he, hdecode⟩))
      obtain rfl := List.inj_on_of_nodup_map hnew hf hdnew
        (hkey.symm.trans ((hkeyed _ _ _ hdecode).trans hid))
      exact hdecode'
    · intro hdecode
      have hb : b ∈ decoded decode old ++ decoded decode (addedDocuments old new) :=
        h ▸ mem_decoded.mpr ⟨d, hdnew, hdecode⟩
      rcases List.mem_append.mp hb with hb | hb
      · obtain ⟨f, hf, hdecode', hkey⟩ := exists_of_mem_decoded hkeyed hb
        obtain rfl := List.inj_on_of_nodup_map hold hf he
          (hkey.symm.trans ((hkeyed _ _ _ hdecode).trans hid.symm))
        exact hdecode'
      · obtain ⟨f, hf, -, hkey⟩ := exists_of_mem_decoded hkeyed hb
        apply absurd hdold
        rw [← hkeyed _ _ _ hdecode, hkey]
        exact (mem_addedDocuments.mp hf).2
  case added_last =>
    rw [← h] at hsnew
    exact (List.pairwise_append.mp hsnew).2.2

/-- **A list in order with the added entries appended shows the next result in order
exactly when the changes only append.** -/
theorem append_eq_iff (hkeyed : Keyed decode key)
    (hanti : ∀ b b', before b b' → before b' b → b = b') (hold : (old.map Prod.fst).Nodup)
    (hnew : (new.map Prod.fst).Nodup) (hsold : (decoded decode old).Pairwise before)
    (hsnew : (decoded decode new).Pairwise before) :
    decoded decode old ++ decodedAdded decode (documentChanges old new) = decoded decode new ↔
      AppendOnly decode before old new := by
  rw [decodedAdded_documentChanges]
  constructor
  · exact appendOnly_of_eq hkeyed hold hnew hsnew
  · intro h
    have hperm : (decoded decode old ++ decoded decode (addedDocuments old new)).Perm
        (decoded decode new) := by
      refine (List.perm_ext_iff_of_nodup (nodup_append_added hkeyed hold hnew)
        (List.Nodup.of_map key (nodup_keys_decoded hkeyed hnew))).mpr fun b => ?_
      rw [List.mem_append, h.mem_decoded_iff hold]
    have hsorted : (decoded decode old ++ decoded decode (addedDocuments old new)).Pairwise
        before :=
      List.pairwise_append.mpr
        ⟨hsold, hsnew.sublist (List.filter_sublist.filterMap _), h.added_last⟩
    exact hperm.eq_of_pairwise (fun b b' _ _ => hanti b b') hsorted hsnew

end Append

end Subtle.Lib
