import Subtle.Feed.AgeFilter
import Subtle.Lib.Snapshot
import Mathlib.Data.List.Pairwise
import Mathlib.Data.List.Sort
import Mathlib.Data.PNat.Defs
import Mathlib.Data.Prod.Lex
import Mathlib.Data.String.Basic
import Mathlib.Data.Int.Order.Basic

/-!
# The loaders of the feed

`loadPosts` asks for the newest posts.  `loadFilteredPosts` starts with the same query and
then assigns a new one, of the whole collection, in each of its four branches.

* `getDocuments`: the documents that a query returns.
* `Newest`: the first posts by descending creation date.
* `filtered_newest_iff`: **the newest posts are loaded, and of a filter exactly when no more
  posts match than are asked for and the younger ones were created first**.
-/

namespace Subtle.Feed

open Subtle.Firestore Subtle.Lib

/-! ### Queries -/

/-- A query of a collection; an order is a field and whether it is descending. -/
structure Query where
  whereFields : List WhereField
  order : Option (String × Bool)
  limit : Option ℕ+

namespace Query

def collection : Query := ⟨[], none, none⟩

def whereField (ref : Query) (w : WhereField) : Query :=
  { ref with whereFields := ref.whereFields ++ [w] }

def orderBy (ref : Query) (field : String) (descending : Bool) : Query :=
  { ref with order := some (field, descending) }

def limitTo (ref : Query) (number : ℕ+) : Query := { ref with limit := some number }

/-- Without an order of its own a query is in the ascending order of the field of its
inequalities. -/
def resultOrder (ref : Query) : Option (String × Bool) :=
  ref.order.or ((ref.whereFields.find? fun w => w.comparison ≠ .isEqualTo).map fun w =>
    (w.field, false))

end Query

/-- The time that a document has in a field. -/
def timestampAt (field : String) (d : String × Document) : Option Int :=
  (d.2 field).bind Value.asTimestamp

/-- By time, and by id in the same direction where the times are equal. -/
def InOrder : Bool → Int × String → Int × String → Prop
  | true, x, y => toLex y ≤ toLex x
  | false, x, y => toLex x ≤ toLex y

instance : ∀ descending x y, Decidable (InOrder descending x y)
  | true, x, y => inferInstanceAs (Decidable (toLex y ≤ toLex x))
  | false, x, y => inferInstanceAs (Decidable (toLex x ≤ toLex y))

theorem InOrder.total (descending : Bool) (x y : Int × String) :
    InOrder descending x y ∨ InOrder descending y x := by
  cases descending with
  | true => exact le_total (toLex y) (toLex x)
  | false => exact le_total (toLex x) (toLex y)

theorem InOrder.trans {descending : Bool} {x y z : Int × String} (h : InOrder descending x y)
    (h' : InOrder descending y z) : InOrder descending x z := by
  cases descending with
  | true => exact le_trans (α := Int ×ₗ String) h' h
  | false => exact le_trans (α := Int ×ₗ String) h h'

/-- A document without the field that the result is ordered by is not in it. -/
def sortDocuments (order : Option (String × Bool)) (docs : List (String × Document)) :
    List (String × Document) :=
  match order with
  | none => docs.insertionSort fun d e => d.1 ≤ e.1
  | some (field, descending) =>
      let timed := docs.filterMap fun d => (timestampAt field d).map fun t => (t, d)
      (timed.insertionSort fun x y => InOrder descending (x.1, x.2.1) (y.1, y.2.1)).map Prod.snd

def Query.getDocuments (ref : Query) (documents : List (String × Document)) :
    List (String × Document) :=
  let found := documents.filter fun d => ref.whereFields.all fun w => w.matches d.2
  let sorted := sortDocuments ref.resultOrder found
  match ref.limit with
  | none => sorted
  | some number => sorted.take number

/-! ### The loaders -/

def newestQuery (number : ℕ+) : Query :=
  (Query.collection.limitTo number).orderBy "creationDate" true

/-- The query of `loadFilteredPosts`.  Every branch assigns it anew, so neither the order nor
the `number` of the first assignment is in it. -/
def filteredQuery (calendar : Calendar) (now : Int) (_number : ℕ+) (uniQuery : String)
    (minAgeQuery maxAgeQuery : Nat) : Query :=
  (whereFields calendar now uniQuery minAgeQuery maxAgeQuery).foldl Query.whereField
    Query.collection

/-- What the completion of a loader is given. -/
def decodePosts (docs : List (String × Document)) : List Post :=
  docs.filterMap fun d => Post.decode d.1 d.2

/-- What `loadPosts` delivers, unless nobody is signed in. -/
def loadPosts (currentUser : Option String) (number : ℕ+) (documents : List (String × Document)) :
    Option (List Post) :=
  currentUser.map fun _ => decodePosts ((newestQuery number).getDocuments documents)

def loadFilteredPosts (currentUser : Option String) (calendar : Calendar) (now : Int)
    (number : ℕ+) (uniQuery : String) (minAgeQuery maxAgeQuery : Nat)
    (documents : List (String × Document)) : Option (List Post) :=
  currentUser.map fun _ => decodePosts
    ((filteredQuery calendar now number uniQuery minAgeQuery maxAgeQuery).getDocuments documents)

/-! ### What a query returns -/

section Sorted

variable {field : String} {descending : Bool} {docs : List (String × Document)}

/-- **Documents in order**: all of them, sorted by the field. -/
theorem sortDocuments_spec (hdocs : ∀ d ∈ docs, timestampAt field d ≠ none) :
    (sortDocuments (some (field, descending)) docs).Perm docs ∧
    (sortDocuments (some (field, descending)) docs).Pairwise fun d e =>
      ∀ s ∈ timestampAt field d, ∀ t ∈ timestampAt field e,
        InOrder descending (s, d.1) (t, e.1) := by
  set r : Int × String × Document → Int × String × Document → Prop := fun x y =>
    InOrder descending (x.1, x.2.1) (y.1, y.2.1) with hr
  set timed := docs.filterMap fun d => (timestampAt field d).map fun t => (t, d) with htimed
  have hsort : sortDocuments (some (field, descending)) docs =
      (timed.insertionSort r).map Prod.snd := rfl
  have htotal : Std.Total r := ⟨fun x y => InOrder.total descending _ _⟩
  have htrans : IsTrans _ r := ⟨fun x y z => InOrder.trans⟩
  have htime : ∀ x ∈ timed.insertionSort r, timestampAt field x.2 = some x.1 := by
    intro x hx
    obtain ⟨d, -, hd⟩ := List.mem_filterMap.mp ((List.mem_insertionSort r).mp hx)
    obtain ⟨t, ht, rfl⟩ := Option.map_eq_some_iff.mp hd
    exact ht
  have hall : timed.map Prod.snd = docs := by
    have hsome : ∀ d ∈ docs,
        ((timestampAt field d).map fun t => (t, d)).map Prod.snd = some d := by
      intro d hd
      obtain ⟨t, ht⟩ := Option.ne_none_iff_exists'.mp (hdocs d hd)
      rw [ht]
      rfl
    rw [htimed, List.map_filterMap, List.filterMap_congr hsome, List.filterMap_some]
  rw [hsort]
  refine ⟨hall ▸ (List.perm_insertionSort r timed).map Prod.snd, List.pairwise_map.mpr ?_⟩
  refine (List.pairwise_insertionSort r timed).imp_of_mem fun {x y} hx hy hxy s hs t ht => ?_
  obtain rfl := Option.some.inj ((htime x hx).symm.trans hs)
  obtain rfl := Option.some.inj ((htime y hy).symm.trans ht)
  exact hxy

end Sorted

theorem birthday_of_decode {id : String} {document : Document} {post : Post}
    (h : Post.decode id document = some post) :
    timestampAt "birthday" (id, document) = some post.birthday := by
  unfold Post.decode at h
  iterate 5 obtain ⟨_, -, h⟩ := Option.bind_eq_some_iff.mp h
  obtain ⟨birthday, hbirthday, h⟩ := Option.bind_eq_some_iff.mp h
  iterate 7 obtain ⟨_, -, h⟩ := Option.bind_eq_some_iff.mp h
  obtain rfl := Option.some.inj h
  exact hbirthday

theorem creationDate_of_decode {id : String} {document : Document} {post : Post}
    (h : Post.decode id document = some post) :
    timestampAt "creationDate" (id, document) = some post.creationDate := by
  unfold Post.decode at h
  iterate 12 obtain ⟨_, -, h⟩ := Option.bind_eq_some_iff.mp h
  obtain ⟨creationDate, hcreationDate, h⟩ := Option.bind_eq_some_iff.mp h
  obtain rfl := Option.some.inj h
  exact hcreationDate

section Posts

variable {docs : List (String × Document)}

theorem decodePosts_take (hdocs : ∀ d ∈ docs, Post.decode d.1 d.2 ≠ none) (n : Nat) :
    decodePosts (docs.take n) = (decodePosts docs).take n := by
  induction docs generalizing n with
  | nil => rw [List.take_nil, decodePosts, List.filterMap_nil, List.take_nil]
  | cons d docs ih =>
    cases n with
    | zero => rfl
    | succ n =>
      obtain ⟨post, hpost⟩ := Option.ne_none_iff_exists'.mp (hdocs d List.mem_cons_self)
      have hcons : ∀ docs', decodePosts (d :: docs') = post :: decodePosts docs' := fun docs' =>
        List.filterMap_cons_some (f := fun d : String × Document => Post.decode d.1 d.2) hpost
      rw [List.take_succ_cons, hcons, hcons, List.take_succ_cons,
        ih fun d' hd' => hdocs d' (List.mem_cons_of_mem d hd')]

/-- **Posts in order**: those of all documents, sorted by the time that a post has in the
field. -/
theorem decodePosts_sortDocuments {field : String} {descending : Bool} {time : Post → Int}
    (htime : ∀ id document post, Post.decode id document = some post →
      timestampAt field (id, document) = some (time post))
    (hdocs : ∀ d ∈ docs, Post.decode d.1 d.2 ≠ none) :
    (sortDocuments (some (field, descending)) docs).Perm docs ∧
    (decodePosts (sortDocuments (some (field, descending)) docs)).Perm (decodePosts docs) ∧
    (decodePosts (sortDocuments (some (field, descending)) docs)).Pairwise fun p q =>
      ∀ i ∈ p.id, ∀ j ∈ q.id, InOrder descending (time p, i) (time q, j) := by
  have hfield : ∀ d ∈ docs, timestampAt field d ≠ none := by
    intro d hd
    obtain ⟨post, hpost⟩ := Option.ne_none_iff_exists'.mp (hdocs d hd)
    rw [htime _ _ _ hpost]
    exact Option.some_ne_none _
  obtain ⟨hperm, hsorted⟩ := @sortDocuments_spec field descending docs hfield
  refine ⟨hperm, hperm.filterMap _, List.pairwise_filterMap.mpr (hsorted.imp ?_)⟩
  intro d e hde p hp q hq i hi j hj
  obtain rfl := Option.some.inj ((id_of_decode hp).symm.trans hi)
  obtain rfl := Option.some.inj ((id_of_decode hq).symm.trans hj)
  exact hde _ (htime _ _ _ hp) _ (htime _ _ _ hq)

theorem exists_id_of_mem {p : Post} (hp : p ∈ decodePosts docs) : ∃ i, p.id = some i := by
  obtain ⟨d, -, hd⟩ := List.mem_filterMap.mp hp
  exact ⟨d.1, id_of_decode hd⟩

end Posts

theorem time_le_of_inOrder {s t : Int} {i j : String} (h : InOrder true (s, i) (t, j)) :
    t ≤ s := by
  rcases Prod.Lex.toLex_le_toLex.mp h with hlt | ⟨heq, -⟩
  · exact le_of_lt hlt
  · exact le_of_eq heq

theorem before_of_inOrder {s t : Int} {i j : String} (h : InOrder false (s, i) (t, j))
    (hne : i ≠ j) : s < t ∨ s = t ∧ i < j := by
  rcases Prod.Lex.toLex_le_toLex.mp h with hlt | ⟨heq, hle⟩
  · exact Or.inl hlt
  · exact Or.inr ⟨heq, lt_of_le_of_ne hle hne⟩

theorem not_inOrder_of_before {s t : Int} {i j : String} (h : s < t ∨ s = t ∧ i < j) :
    ¬ InOrder false (t, j) (s, i) := by
  intro hle
  rcases Prod.Lex.toLex_le_toLex.mp hle with hlt | ⟨heq, hji⟩
  · rcases h with h | ⟨h, -⟩
    · exact lt_asymm h hlt
    · exact absurd h (ne_of_gt hlt)
  · rcases h with h | ⟨-, h⟩
    · exact absurd heq (ne_of_gt h)
    · exact not_le.mpr h hji

/-- Of two elements of a list one stands before the other. -/
theorem pairwise_or_of_ne {α : Type*} {R : α → α → Prop} {l : List α} (h : l.Pairwise R) {a b : α}
    (ha : a ∈ l) (hb : b ∈ l) (hne : a ≠ b) : R a b ∨ R b a := by
  have hsymm : Std.Symm fun a b => R a b ∨ R b a := ⟨fun _ _ hab => hab.symm⟩
  have hl : l.Pairwise fun a b => R a b ∨ R b a := h.imp Or.inl
  exact hl.forall ha hb hne

/-! ### The newest posts -/

/-- The documents of a collection that are all posts. -/
structure PostStore where
  documents : List (String × Document)
  ids_nodup : (documents.map Prod.fst).Nodup
  decodes : ∀ d ∈ documents, Post.decode d.1 d.2 ≠ none

/-- The first `number` of the posts by descending creation date. -/
def Newest (number : ℕ+) (posts newest : List Post) : Prop :=
  ∃ others, (newest ++ others).Perm posts ∧
    (newest ++ others).Pairwise (fun p q => q.creationDate ≤ p.creationDate) ∧
    newest.length = min (number : Nat) posts.length

/-- No more posts than the number, and of two of them the one with the earlier birthday, or
with the smaller id where these are equal, was not created first. -/
structure YoungerFirst (number : ℕ+) (posts : List Post) : Prop where
  few : posts.length ≤ number
  agree : ∀ p ∈ posts, ∀ q ∈ posts, ∀ i ∈ p.id, ∀ j ∈ q.id,
    p.birthday < q.birthday ∨ p.birthday = q.birthday ∧ i < j → q.creationDate ≤ p.creationDate

namespace PostStore

variable (store : PostStore)

def posts : List Post := decodePosts store.documents

/-- The documents that the where-clauses select. -/
def found (calendar : Calendar) (now : Int) (uniQuery : String) (minAge maxAge : Nat) :
    List (String × Document) :=
  store.documents.filter fun d =>
    (whereFields calendar now uniQuery minAge maxAge).all fun w => w.matches d.2

def matching (calendar : Calendar) (now : Int) (uniQuery : String) (minAge maxAge : Nat) :
    List Post := decodePosts (store.found calendar now uniQuery minAge maxAge)

theorem decodes_of_found (calendar : Calendar) (now : Int) (uniQuery : String)
    (minAge maxAge : Nat) : ∀ d ∈ store.found calendar now uniQuery minAge maxAge,
      Post.decode d.1 d.2 ≠ none :=
  fun d hd => store.decodes d (List.mem_filter.mp hd).1

theorem nodup_ids_of_perm {calendar : Calendar} {now : Int} {uniQuery : String}
    {minAge maxAge : Nat} {posts : List Post}
    (h : posts.Perm (store.matching calendar now uniQuery minAge maxAge)) :
    posts.Pairwise fun p q => p.id ≠ q.id := by
  have hkeyed : Keyed Post.decode fun p => p.id.getD "" := by
    intro id document post hdecode
    show post.id.getD "" = id
    rw [id_of_decode hdecode]
    rfl
  have hfound : ((store.found calendar now uniQuery minAge maxAge).map Prod.fst).Nodup :=
    store.ids_nodup.sublist (List.filter_sublist.map _)
  have hnodup := (h.map fun p => p.id.getD "").nodup_iff.mpr (nodup_keys_decoded hkeyed hfound)
  exact (List.pairwise_map.mp hnodup).imp fun hne heq => hne (congrArg (Option.getD · "") heq)

end PostStore

/-- **The newest posts are loaded.** -/
theorem newest_loadPosts (store : PostStore) (number : ℕ+) :
    Newest number store.posts
      (decodePosts ((newestQuery number).getDocuments store.documents)) := by
  have hget : (newestQuery number).getDocuments store.documents =
      (sortDocuments (some ("creationDate", true)) store.documents).take number := by
    show (sortDocuments _ (store.documents.filter fun _ => true)).take _ = _
    rw [List.filter_true]
    rfl
  obtain ⟨hdocs, hperm, hsorted⟩ := @decodePosts_sortDocuments _ "creationDate" true _
    (fun _ _ _ => creationDate_of_decode) store.decodes
  rw [hget, decodePosts_take fun d hd => store.decodes d (hdocs.mem_iff.mp hd)]
  refine ⟨(decodePosts (sortDocuments (some ("creationDate", true)) store.documents)).drop number,
    ?_, ?_, ?_⟩
  · rw [List.take_append_drop]
    exact hperm
  · rw [List.take_append_drop]
    refine hsorted.imp_of_mem fun {p q} hp hq hpq => ?_
    obtain ⟨i, hi⟩ := exists_id_of_mem hp
    obtain ⟨j, hj⟩ := exists_id_of_mem hq
    exact time_le_of_inOrder (hpq i hi j hj)
  · rw [List.length_take, hperm.length_eq]
    rfl

/-- The query of a filter has its clauses, the order of the birthdays and no limit. -/
theorem getDocuments_filteredQuery (store : PostStore) (calendar : Calendar) (now : Int)
    (number : ℕ+) (uniQuery : String) (minAge maxAge : Nat) :
    (filteredQuery calendar now number uniQuery minAge maxAge).getDocuments store.documents =
      sortDocuments (some ("birthday", false))
        (store.found calendar now uniQuery minAge maxAge) := by
  have hfold : ∀ (ws : List WhereField) (ref : Query),
      ws.foldl Query.whereField ref = { ref with whereFields := ref.whereFields ++ ws } := by
    intro ws
    induction ws with
    | nil => exact fun ref => by rw [List.append_nil]; rfl
    | cons w ws ih =>
      intro ref
      rw [List.foldl_cons, ih, Query.whereField]
      simp only [List.append_assoc, List.singleton_append]
  have horder : ((whereFields calendar now uniQuery minAge maxAge).find? fun w =>
      w.comparison ≠ .isEqualTo).map (fun w => (w.field, false)) = some ("birthday", false) := by
    unfold whereFields
    split <;> split <;> rfl
  rw [filteredQuery, hfold]
  show sortDocuments (((whereFields calendar now uniQuery minAge maxAge).find? _).map _) _ = _
  rw [horder]
  rfl

/-- **All matching posts are loaded**, in the order of their birthdays. -/
theorem newest_iff_youngerFirst (store : PostStore) (calendar : Calendar) (now : Int)
    (number : ℕ+) (uniQuery : String) (minAge maxAge : Nat) :
    Newest number (store.matching calendar now uniQuery minAge maxAge)
      (decodePosts ((filteredQuery calendar now number uniQuery minAge maxAge).getDocuments
        store.documents)) ↔
      YoungerFirst number (store.matching calendar now uniQuery minAge maxAge) := by
  rw [getDocuments_filteredQuery]
  obtain ⟨-, hperm, hsorted⟩ := @decodePosts_sortDocuments _ "birthday" false _
    (fun _ _ _ => birthday_of_decode) (store.decodes_of_found calendar now uniQuery minAge maxAge)
  constructor
  · rintro ⟨others, -, hnewest, hlength⟩
    have hpairs := hsorted.and (List.pairwise_append.mp hnewest).1
    refine ⟨?_, fun p hp q hq i hi j hj hbefore => ?_⟩
    · rw [hperm.length_eq] at hlength
      exact min_eq_right_iff.mp hlength.symm
    · have hne : p ≠ q := by
        rintro rfl
        obtain rfl := Option.some.inj (hi.symm.trans hj)
        exact hbefore.elim (lt_irrefl _) fun h => lt_irrefl _ h.2
      -- one of the two stands first, and by its birthday that is `p`
      rcases pairwise_or_of_ne hpairs (hperm.mem_iff.mpr hp) (hperm.mem_iff.mpr hq) hne with
        hpq | hqp
      · exact hpq.2
      · exact absurd (hqp.1 j hj i hi) (not_inOrder_of_before hbefore)
  · rintro ⟨hfew, hagree⟩
    refine ⟨[], ?_, ?_, ?_⟩
    · rw [List.append_nil]
      exact hperm
    · rw [List.append_nil]
      refine (hsorted.and (store.nodup_ids_of_perm hperm)).imp_of_mem fun {p q} hp hq hpq => ?_
      obtain ⟨i, hi⟩ := exists_id_of_mem hp
      obtain ⟨j, hj⟩ := exists_id_of_mem hq
      have hne : i ≠ j := by
        rintro rfl
        exact hpq.2 (hi.trans hj.symm)
      refine hagree p (hperm.mem_iff.mp hp) q (hperm.mem_iff.mp hq) i hi j hj ?_
      exact before_of_inOrder (hpq.1 i hi j hj) hne
    · rw [hperm.length_eq]
      exact (Nat.min_eq_right hfew).symm

/-- **The feed loads the newest posts, and of a filter exactly when the matching posts are no
more than asked for and the younger ones were created first.** -/
theorem filtered_newest_iff (store : PostStore) (uid : String) (calendar : Calendar) (now : Int)
    (number : ℕ+) (uniQuery : String) (minAge maxAge : Nat) :
    (∃ posts, loadPosts (some uid) number store.documents = some posts ∧
      Newest number store.posts posts) ∧
    ((∃ posts, loadFilteredPosts (some uid) calendar now number uniQuery minAge maxAge
        store.documents = some posts ∧
      Newest number (store.matching calendar now uniQuery minAge maxAge) posts) ↔
      YoungerFirst number (store.matching calendar now uniQuery minAge maxAge)) := by
  refine ⟨⟨_, rfl, newest_loadPosts store number⟩, ?_⟩
  rw [← newest_iff_youngerFirst]
  constructor
  · rintro ⟨posts, hposts, hnewest⟩
    obtain rfl := Option.some.inj hposts
    exact hnewest
  · exact fun hnewest => ⟨_, rfl, hnewest⟩

/-- Two posts about friends of 25, of whom the older one was posted first. -/
def postsOfApril : PostStore where
  documents := [("p", (postOf 857520000000).encode),
    ("q", { postOf 860000000000 with creationDate := 1 }.encode)]
  ids_nodup := by decide
  decodes := by
    intro d hd
    rcases List.mem_cons.mp hd with rfl | hd
    · exact Option.some_ne_none _
    · obtain rfl := List.mem_singleton.mp hd
      exact Option.some_ne_none _

/-- The post that was posted last comes last. -/
theorem filtered_not_newest : ¬ ∀ (store : PostStore) (uid : String) (calendar : Calendar)
    (now : Int) (number : ℕ+) (uniQuery : String) (minAge maxAge : Nat),
      18 ≤ minAge → minAge ≤ maxAge → maxAge ≤ 30 →
      ∃ posts, loadFilteredPosts (some uid) calendar now number uniQuery minAge maxAge
          store.documents = some posts ∧
        Newest number (store.matching calendar now uniQuery minAge maxAge) posts := by
  intro h
  obtain ⟨posts, hposts, others, -, hnewest, -⟩ :=
    h postsOfApril "ann" ⟨0⟩ april2022 100 "" 18 30 (by decide) (by decide) (by decide)
  have hloaded : (loadFilteredPosts (some "ann") ⟨0⟩ april2022 100 "" 18 30
      postsOfApril.documents).map (fun posts => posts.map Post.creationDate) = some [0, 1] := by
    decide +kernel
  rw [hposts] at hloaded
  have hmap : posts.map Post.creationDate = [0, 1] := Option.some.inj hloaded
  have hdates : (posts.map Post.creationDate).Pairwise fun s t => t ≤ s :=
    List.pairwise_map.mpr (List.pairwise_append.mp hnewest).1
  rw [hmap] at hdates
  exact absurd hdates (by decide)

end Subtle.Feed
