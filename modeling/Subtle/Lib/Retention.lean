import Subtle.Lib.Snapshot

/-!
# What a list that moves changes to the front keeps

Such a list shows the documents of the last result, each as it is there, and it may go on
showing documents that have disappeared.

* `Retains`: no two entries with one key, and every document of the last result is shown.
* `Retains.follow`: **the changes to the next result keep that**, whatever they are.
* `Retains.mem_iff`: where every entry still has its document, the entries are the result.
-/

namespace Subtle.Lib

variable {κ α β : Type*} {decode : κ → α → Option β} {key : β → κ} {shown : List β}
  {old new : List (κ × α)} {b : β}

structure Retains (decode : κ → α → Option β) (key : β → κ) (shown : List β)
    (docs : List (κ × α)) : Prop where
  nodup : (shown.map key).Nodup
  current : ∀ b ∈ decoded decode docs, b ∈ shown

theorem retains_nil : Retains decode key [] [] := ⟨List.nodup_nil, List.forall_mem_nil _⟩

/-- If every entry still has a document with its key, and all documents decode, the entries
are those of the result. -/
theorem Retains.mem_iff (hkeyed : Keyed decode key) (h : Retains decode key shown new)
    (hdecodes : ∀ d ∈ new, decode d.1 d.2 ≠ none)
    (hkeys : ∀ b ∈ shown, key b ∈ new.map Prod.fst) :
    b ∈ shown ↔ b ∈ decoded decode new := by
  refine ⟨fun hb => ?_, h.current b⟩
  obtain ⟨d, hd, hkey⟩ := List.mem_map.mp (hkeys b hb)
  obtain ⟨b', hb'⟩ := Option.ne_none_iff_exists'.mp (hdecodes d hd)
  have hmem : b' ∈ decoded decode new := mem_decoded.mpr ⟨d, hd, hb'⟩
  have hsame : key b' = key b := (hkeyed _ _ _ hb').trans hkey
  obtain rfl := List.inj_on_of_nodup_map h.nodup (h.current b' hmem) hb hsame
  exact hmem

variable [DecidableEq κ] [DecidableEq α]

/-- The entries after the changes: what was touched, and what was shown of the rest. -/
theorem follow_documentChanges (hkeyed : Keyed decode key) (hold : (old.map Prod.fst).Nodup)
    (hnew : (new.map Prod.fst).Nodup) (hshown : (shown.map key).Nodup) :
    follow decode key shown (documentChanges old new) = (touched decode old new).reverse ++
      shown.filter fun b => key b ∉ (touched decode old new).map key := by
  have hchanged : ((touched decode old new).map key).Nodup := by
    rw [touched_eq]
    exact nodup_keys_decoded hkeyed (nodup_changed hold hnew)
  rw [follow_eq, foldl_toFront hchanged hshown]

theorem mem_touched_cases (h : b ∈ touched decode old new) :
    b ∈ decoded decode old ∨ b ∈ decoded decode new := by
  rw [touched_eq] at h
  obtain ⟨d, hd, hdecode⟩ := mem_decoded.mp h
  rcases List.mem_append.mp hd with hd | hd
  · rcases List.mem_append.mp hd with hd | hd
    · exact Or.inl (mem_decoded.mpr ⟨d, (mem_removedDocuments.mp hd).1, hdecode⟩)
    · exact Or.inr (mem_decoded.mpr ⟨d, (mem_addedDocuments.mp hd).1, hdecode⟩)
  · exact Or.inr (mem_decoded.mpr ⟨d, (mem_modifiedDocuments.mp hd).1, hdecode⟩)

/-- **Every entry comes from the list, the last result or the next one.** -/
theorem mem_follow_cases (hkeyed : Keyed decode key) (hold : (old.map Prod.fst).Nodup)
    (hnew : (new.map Prod.fst).Nodup) (hshown : (shown.map key).Nodup)
    (h : b ∈ follow decode key shown (documentChanges old new)) :
    b ∈ shown ∨ b ∈ decoded decode old ∨ b ∈ decoded decode new := by
  rw [follow_documentChanges hkeyed hold hnew hshown] at h
  rcases List.mem_append.mp h with h | h
  · exact Or.inr (mem_touched_cases (List.mem_reverse.mp h))
  · exact Or.inl (List.mem_filter.mp h).1

/-- **The changes to the next result keep what a list retains.** -/
theorem Retains.follow (hkeyed : Keyed decode key) (hold : (old.map Prod.fst).Nodup)
    (hnew : (new.map Prod.fst).Nodup) (h : Retains decode key shown old) :
    Retains decode key (follow decode key shown (documentChanges old new)) new := by
  rw [follow_documentChanges hkeyed hold hnew h.nodup]
  constructor
  case nodup =>
    rw [List.map_append]
    refine List.nodup_append'.mpr ⟨?_, h.nodup.sublist (List.filter_sublist.map _), ?_⟩
    · rw [List.map_reverse, List.nodup_reverse, touched_eq]
      exact nodup_keys_decoded hkeyed (nodup_changed hold hnew)
    · intro k hk hk'
      obtain ⟨b, hb, rfl⟩ := List.mem_map.mp hk'
      rw [List.map_reverse, List.mem_reverse] at hk
      exact absurd hk (of_decide_eq_true (List.mem_filter.mp hb).2)
  case current =>
    intro b hb
    obtain ⟨d, hd, hdecode⟩ := mem_decoded.mp hb
    by_cases hid : d.1 ∈ old.map Prod.fst
    · by_cases hdold : d ∈ old
      · -- an unchanged document is shown and is not touched
        refine List.mem_append_right _ (List.mem_filter.mpr ⟨?_, decide_eq_true ?_⟩)
        · exact h.current b (mem_decoded.mpr ⟨d, hdold, hdecode⟩)
        · exact key_not_mem_touched hkeyed hnew hdold hdecode hd rfl (Or.inl rfl)
      · have hmodified := mem_modifiedDocuments.mpr ⟨hd, hid, hdold⟩
        refine List.mem_append_left _ (List.mem_reverse.mpr ?_)
        exact List.mem_append_right _ (mem_decoded.mpr ⟨d, hmodified, hdecode⟩)
    · have hadded := mem_addedDocuments.mpr ⟨hd, hid⟩
      refine List.mem_append_left _ (List.mem_reverse.mpr ?_)
      exact List.mem_append_left _
        (List.mem_append_right _ (mem_decoded.mpr ⟨d, hadded, hdecode⟩))

end Subtle.Lib
