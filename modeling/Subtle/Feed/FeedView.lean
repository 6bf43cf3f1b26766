import Subtle.Feed.Pictures
import Subtle.Lib.Positions
import Mathlib.Data.Finset.Sort

/-!
# Swiping a row of the feed

`FeedView` shows the posts that match the search text, and `delete` resolves the offsets of
the swiped rows in the list of all posts.

* `searchedPosts`: the rows.
* `deletePosts_iff`: **the posts that are deleted are the displayed ones exactly when every
  post up to a swiped row matches**, or the row shows a further copy of the same post.
-/

namespace Subtle.Feed

open Subtle.Lib

section

-- the functions of the same names of strings
variable (lowercased : String → String) (contains : String → String → Bool)

def Post.searchableString (post : Post) : String :=
  lowercased (post.name ++ " " ++ post.text ++ " " ++ post.university ++ " " ++ post.location)

/-- The rows of the feed. -/
def searchedPosts (posts : List Post) (searchText : String) : List Post :=
  if searchText = "" then posts
  else posts.filter fun post => contains (post.searchableString lowercased) (lowercased searchText)

/-- The posts in the rows at the offsets. -/
def displayedPosts (posts : List Post) (searchText : String) (offsets : Finset Nat) :
    Option (List Post) :=
  offsets.sort.mapM fun idx => (searchedPosts lowercased contains posts searchText)[idx]?

/-- The posts that `FeedView.delete` passes on, or `none` if it indexes outside the list. -/
def deletePosts (posts : List Post) (offsets : Finset Nat) : Option (List Post) :=
  offsets.sort.mapM fun idx => posts[idx]?

/-- The post matches the search text. -/
def Post.matches (searchText : String) (post : Post) : Bool :=
  searchText == "" || contains (post.searchableString lowercased) (lowercased searchText)

/-- The row at `idx` shows a copy of the post at `idx` that stands further down. -/
def ShowsCopy (posts : List Post) (searchText : String) (idx : Nat) : Prop :=
  ∃ k post, idx < k ∧ posts[idx]? = some post ∧ posts[k]? = some post ∧
    post.matches lowercased contains searchText = true ∧
      (posts.take k).countP (Post.matches lowercased contains searchText) = idx

variable {lowercased contains} {posts : List Post} {searchText : String} {offsets : Finset Nat}

theorem searchedPosts_eq_filter : searchedPosts lowercased contains posts searchText =
    posts.filter (Post.matches lowercased contains searchText) := by
  unfold searchedPosts
  split
  · rename_i hempty
    refine (List.filter_eq_self.mpr fun post _ => ?_).symm
    simp [Post.matches, hempty]
  · rename_i hne
    refine List.filter_congr fun post _ => ?_
    simp [Post.matches, hne]

/-- Row `idx` shows the post at `idx`. -/
theorem row_iff {idx : Nat} (hidx : idx < (searchedPosts lowercased contains posts
      searchText).length) :
    posts[idx]? = (searchedPosts lowercased contains posts searchText)[idx]? ↔
      (∀ post ∈ posts.take (idx + 1), post.matches lowercased contains searchText = true) ∨
        ShowsCopy lowercased contains posts searchText idx := by
  rw [searchedPosts_eq_filter] at hidx ⊢
  have hlt : idx < posts.length := Nat.lt_of_lt_of_le hidx (List.length_filter_le _ _)
  have hpost : posts[idx]? = some posts[idx] := List.getElem?_eq_getElem hlt
  rw [hpost, eq_comm, getElem?_filter_iff hpost]
  refine or_congr_right ?_
  constructor
  · rintro ⟨k, hk, hget, hmatches, hcount⟩
    exact ⟨k, _, hk, hpost, hget, hmatches, hcount⟩
  · rintro ⟨k, post, hk, hsame, hget, hmatches, hcount⟩
    obtain rfl := Option.some.inj (hpost.symm.trans hsame)
    exact ⟨k, hk, hget, hmatches, hcount⟩

/-- **The posts that are deleted are the displayed ones exactly when every post up to each
of the rows matches the search text**, or the row shows a further copy of its post. -/
theorem deletePosts_iff (hoffsets : ∀ idx ∈ offsets, idx < (searchedPosts lowercased contains
      posts searchText).length) :
    deletePosts posts offsets = displayedPosts lowercased contains posts searchText offsets ↔
      ∀ idx ∈ offsets,
        (∀ post ∈ posts.take (idx + 1), post.matches lowercased contains searchText = true) ∨
          ShowsCopy lowercased contains posts searchText idx := by
  have hrows : ∀ idx ∈ offsets.sort,
      (searchedPosts lowercased contains posts searchText)[idx]? ≠ none := by
    intro idx hidx
    rw [ne_eq, List.getElem?_eq_none_iff, Nat.not_le]
    exact hoffsets idx ((Finset.mem_sort _).mp hidx)
  rw [deletePosts, displayedPosts, mapM_eq_mapM_iff hrows]
  simp only [Finset.mem_sort]
  exact forall₂_congr fun idx hidx => row_iff (hoffsets idx hidx)

end

/-- Character by character, as `lowercased` is on the texts below. -/
def lower (s : String) : String := String.ofList (s.toList.map Char.toLower)

/-- Character by character, as `contains` is on the texts below. -/
def isPart (s t : String) : Bool := decide (t.toList <:+: s.toList)

/-- Another post of Ann's. -/
def carl : Post := { annsPost with id := some "q", name := "Carl", pictures := [] }

theorem deletePosts_iff_example : deletePosts [carl, annsPost] {0} =
    displayedPosts lower isPart [carl, annsPost] "carl" {0} := by
  have hoffsets : ∀ idx ∈ ({0} : Finset Nat),
      idx < (searchedPosts lower isPart [carl, annsPost] "carl").length := by
    decide +kernel
  refine (deletePosts_iff hoffsets).mpr fun idx hidx => Or.inl ?_
  obtain rfl := Finset.mem_singleton.mp hidx
  decide +kernel

/-- Only the second post matches, so it is the first row; the first post is deleted. -/
theorem deletes_hidden_post : ¬ ∀ (lowercased : String → String)
    (contains : String → String → Bool) (posts : List Post) (searchText : String)
    (offsets : Finset Nat),
      (∀ idx ∈ offsets, idx < (searchedPosts lowercased contains posts searchText).length) →
        deletePosts posts offsets =
          displayedPosts lowercased contains posts searchText offsets := by
  intro h
  have hsame := h lower isPart [annsPost, carl] "carl" {0} (by decide +kernel)
  rw [deletePosts, displayedPosts, Finset.sort_singleton] at hsame
  exact absurd hsame (by decide +kernel)

end Subtle.Feed
