import Subtle.Feed.Edits
import Subtle.Feed.Likes
import Subtle.Index.Rebuild

/-!
# The index of the app

The app writes posts, and every write is followed by its trigger.  A new post has all
fields, an edit of the form writes the fields of the form only, and a like or an unlike the
likes: no write of the app takes a field away or changes the creation date.  The index is
then never behind a full rebuild.

* `Continues`: what a write must keep of the post there is.
* `rebuild_step`: one trigger keeps the index a full rebuild.
* `indexed`: the app with its index.
* `index_eq_rebuild`: **the index is a full rebuild in every state of the app**, however
  the writes of all clients are interleaved.
-/

namespace Subtle.Index

open Subtle.Firestore Subtle.Lib Subtle.Feed

/-! ### One trigger -/

/-- The data after an update has the fields that there were, and the creation date. -/
structure Continues (old post : Document) : Prop where
  fields : ∀ k, old k ≠ none → post k ≠ none
  creationDate : post "creationDate" = old "creationDate"
  creationTimestamp : post "creationTimestamp" = none

variable {getTime : Option Value → Value}

/-- **The merge of an update is the object of the post there is then.** -/
theorem overwrite_createdObject {id : String} {old post : Document} (h : Continues old post) :
    (createdObject getTime id old).overwrite (modifiedObject getTime id post) =
      createdObject getTime id post := by
  funext k
  by_cases hk : k ∈ derived
  · simp only [derived, List.mem_cons, List.not_mem_nil, or_false] at hk
    rcases hk with rfl | rfl | rfl
    · rfl
    · have hnone : modifiedObject getTime id post "creationTimestamp" = none :=
        h.creationTimestamp
      rw [Record.overwrite_of_none hnone, createdObject_creationTimestamp,
        createdObject_creationTimestamp, h.creationDate]
    · rfl
  · rw [Record.overwrite, modifiedObject_of_not_derived hk, createdObject_of_not_derived hk,
      createdObject_of_not_derived hk]
    cases hpost : post k with
    | some v => rfl
    | none =>
      have hold : old k = none := by
        by_contra hne
        exact h.fields k hne hpost
      rw [hold]
      rfl

/-- The posts after a change. -/
def Change.after : Change → Option Document
  | create post | update post => some post
  | delete => none

/-- **One trigger keeps the index a full rebuild**, if an update continues the post. -/
theorem rebuild_step {posts : String → Option Document} {id : String} {change : Change}
    (h : ∀ post, change = .update post → ∃ old, posts id = some old ∧ Continues old post) :
    change.handle getTime id (rebuild getTime posts) =
      rebuild getTime (Function.update posts id change.after) := by
  funext i
  rw [handle_apply]
  by_cases hi : i = id
  · subst hi
    rw [if_pos rfl, rebuild, rebuild, Function.update_self]
    cases change with
    | create post => rfl
    | update post =>
      obtain ⟨old, hold, hcontinues⟩ := h post rfl
      rw [hold]
      exact congrArg some (overwrite_createdObject hcontinues)
    | delete => rfl
  · rw [if_neg hi, rebuild, rebuild, Function.update_of_ne hi]

/-! ### The app with its index -/

/-- The change of a post that an answer commits, if any. -/
def changeOf (s : App) : Op → Feed.Reply → Option (String × Change)
  | .setData id post, .ok =>
      some (id, if s.posts id = none then .create post.encode else .update post.encode)
  | .updateData _ id change, .ok =>
      (s.posts id).map fun document => (id, .update (change.commit document))
  | .deleteDocument id, .ok => (s.posts id).map fun _ => (id, .delete)
  | _, _ => none

/-- The index after the trigger of an answer. -/
def follow (getTime : Option Value → Value) (ix : AlgoliaIndex) (s : App) (op : Op)
    (r : Feed.Reply) : AlgoliaIndex :=
  match changeOf s op r with
  | some (id, change) => change.handle getTime id ix
  | none => ix

def indexed (getTime : Option Value → Value) : Service (App × AlgoliaIndex) Call Op Feed.Reply :=
  app.watched id id (fun ix _ _ => some ix) fun ix s op r => some (follow getTime ix s op r)

/-- A post is created under a new id. -/
def CreatesNew (p : App × AlgoliaIndex) (op : Op) (_ : Feed.Reply) : Prop :=
  ∀ id post, op = .setData id post → p.1.posts id = none

/-- The index is a full rebuild, and no write on its way takes a field away or changes the
creation date. -/
structure Rebuilt (getTime : Option Value → Value) (p : App × AlgoliaIndex) (ops : List Op) :
    Prop where
  index : p.2 = rebuild getTime p.1.posts
  stamps : ∀ id document, p.1.posts id = some document → document "creationTimestamp" = none
  edits : ∀ op ∈ ops, op.Edits OfForm

/-- **A write of the app continues the post.** -/
theorem continues_commit {change : Feed.Change} {i : Nat} {id : String}
    (h : (Op.updateData i id change).Edits OfForm) {document : Document}
    (hstamp : document "creationTimestamp" = none) :
    Continues document (change.commit document) := by
  have hlikes : ∀ v, Continues document (assign document "likes" v) := by
    intro v
    refine ⟨fun k hk => ?_, assign_of_ne (by decide) _ _, ?_⟩
    · by_cases hlikes : k = "likes"
      · rw [hlikes, assign_self]
        exact Option.some_ne_none v
      · rwa [assign_of_ne hlikes]
    · rw [assign_of_ne (by decide)]
      exact hstamp
  cases change with
  | edit data =>
    have hdata : OfForm data := h
    refine ⟨fun k hk hnone => hk (Option.or_eq_none_iff.mp hnone).2, ?_, ?_⟩
    · exact Record.overwrite_of_none (hdata _ (by decide)) _
    · exact (Record.overwrite_of_none (hdata _ (by decide)) _).trans hstamp
  | like likerId => exact hlikes _
  | unlike unlikerId => exact hlikes _

/-- **The trigger of an answer** takes the rebuild of the posts before to that of the posts
after. -/
theorem follow_rebuild {s s' : App} {op : Op} {r : Feed.Reply} {new : List Op}
    (hcreates : ∀ id post, op = .setData id post → s.posts id = none)
    (hstamps : ∀ id document, s.posts id = some document → document "creationTimestamp" = none)
    (hop : op.Edits OfForm) (h : Answered s op r s' new) :
    follow getTime (rebuild getTime s.posts) s op r = rebuild getTime s'.posts := by
  cases h with
  | failed =>
    have hnone : changeOf s op .error = none := by cases op <;> rfl
    rw [follow, hnone]
  | uploaded => rfl
  | created id p =>
    have hchange : changeOf s (.setData id p) .ok = some (id, .create p.encode) := by
      rw [changeOf, if_pos (hcreates id p rfl)]
    rw [follow, hchange]
    exact rebuild_step fun post heq => absurd heq (by simp)
  | updated i id change document hdoc =>
    have hchange : changeOf s (.updateData i id change) .ok =
        some (id, .update (change.commit document)) := by
      rw [changeOf, hdoc, Option.map_some]
    rw [follow, hchange]
    refine rebuild_step fun post heq => ?_
    obtain rfl := Change.update.inj heq
    exact ⟨document, hdoc, continues_commit hop (hstamps id document hdoc)⟩
  | missing => rfl
  | read => rfl
  | delivered => rfl
  | removed => rfl
  | kept => rfl
  | deleted id =>
    cases hpost : s.posts id with
    | none =>
      have hchange : changeOf s (.deleteDocument id) .ok = none := by
        rw [changeOf, hpost, Option.map_none]
      have hsame : Function.update s.posts id none = s.posts := by
        rw [← hpost, Function.update_eq_self]
      rw [follow, hchange]
      exact congrArg (rebuild getTime) hsame.symm
    | some document =>
      have hchange : changeOf s (.deleteDocument id) .ok = some (id, .delete) := by
        rw [changeOf, hpost, Option.map_some]
      rw [follow, hchange]
      exact rebuild_step fun post heq => absurd heq (by simp)

/-- No write of the app stores a creation timestamp. -/
theorem stamps_answer {s s' : App} {op : Op} {r : Feed.Reply} {new : List Op}
    (hstamps : ∀ id document, s.posts id = some document → document "creationTimestamp" = none)
    (hop : op.Edits OfForm) (h : Answered s op r s' new) :
    ∀ id document, s'.posts id = some document → document "creationTimestamp" = none := by
  cases h with
  | failed => exact hstamps
  | uploaded => exact hstamps
  | created id p =>
    intro id' document hid
    rcases Record.of_update hid with ⟨-, hnew⟩ | ⟨-, hold⟩
    · obtain rfl := Option.some.inj hnew
      rfl
    · exact hstamps id' document hold
  | updated i id change old hdoc =>
    intro id' document hid
    rcases Record.of_update hid with ⟨-, hnew⟩ | ⟨-, hold⟩
    · obtain rfl := Option.some.inj hnew
      exact (continues_commit hop (hstamps id old hdoc)).creationTimestamp
    · exact hstamps id' document hold
  | missing => exact hstamps
  | read => exact hstamps
  | delivered => exact hstamps
  | removed => exact hstamps
  | kept => exact hstamps
  | deleted id =>
    intro id' document hid
    rcases Record.of_update hid with ⟨-, hnew⟩ | ⟨-, hold⟩
    · exact absurd hnew (by simp)
    · exact hstamps id' document hold

variable {p p' : App × AlgoliaIndex} {pre post new ops : List Op} {op : Op}

theorem rebuilt_answer {r : Feed.Reply} (h : Rebuilt getTime p (pre ++ op :: post))
    (hcreates : CreatesNew p op r) (hx : (indexed getTime).answer p op r = some (p', new)) :
    Rebuilt getTime p' (pre ++ post ++ new) := by
  obtain ⟨s, ix⟩ := p
  obtain ⟨s', ix'⟩ := p'
  obtain ⟨hnote, hanswer⟩ := Service.watched_answer hx
  obtain rfl := Option.some.inj hnote
  obtain rfl : ix = rebuild getTime s.posts := h.index
  have hanswered := answered_of_answer hanswer
  have hop : op.Edits OfForm := h.edits op (by simp)
  refine ⟨follow_rebuild hcreates h.stamps hop hanswered,
    stamps_answer h.stamps hop hanswered, fun op' hop' => ?_⟩
  rcases List.mem_append.mp hop' with hold | hop'
  · exact h.edits op' (Service.mem_pending_iff.mpr (Or.inr hold))
  · exact edits_answer formData_ofForm hop hanswered op' hop'

theorem rebuilt_call {x : Call} (h : Rebuilt getTime p ops)
    (hx : (indexed getTime).call p x = some (p', new)) : Rebuilt getTime p' (ops ++ new) := by
  obtain ⟨s, ix⟩ := p
  obtain ⟨s', ix'⟩ := p'
  obtain ⟨hnote, hcall⟩ := Service.watched_call hx
  obtain rfl := Option.some.inj hnote
  have hcalled := called_of_call hcall
  obtain ⟨hposts, -, -⟩ := call_frames hcalled
  refine ⟨?_, ?_, fun op hop => ?_⟩
  · exact h.index.trans (congrArg (rebuild getTime) hposts.symm)
  · intro id document hid
    exact h.stamps id document (hposts ▸ hid)
  · exact (List.mem_append.mp hop).elim (h.edits op) (edits_call formData_ofForm hcalled op)

section

variable {posts : String → Option Document} {objects : Finset Storage.URL}
  {es : List (Event Call Feed.Reply)} {c : Config (App × AlgoliaIndex) Op}

theorem rebuilt_run
    (hstamps : ∀ id document, posts id = some document → document "creationTimestamp" = none)
    (hcreates : (indexed getTime).machine.Along (Service.OnAnswer CreatesNew)
      ⟨(App.start posts objects, rebuild getTime posts), []⟩ es)
    (hrun : (indexed getTime).machine.run
      ⟨(App.start posts objects, rebuild getTime posts), []⟩ es = some c) :
    Rebuilt getTime c.core c.pending := by
  refine Service.run_inv (I := Rebuilt getTime) ?_ ?_ ?_ hcreates hrun
  · intro p ops x p' new h _ hx
    exact rebuilt_call h hx
  · intro p pre op post r p' new h hP hx
    exact rebuilt_answer h (Service.onStep_answer.mp hP) hx
  · exact ⟨rfl, hstamps, List.forall_mem_nil _⟩

/-- **The index is a full rebuild in every state of the app**, if it was one at the start and
new posts have new ids. -/
theorem index_eq_rebuild
    (hstamps : ∀ id document, posts id = some document → document "creationTimestamp" = none)
    (hcreates : (indexed getTime).machine.Along (Service.OnAnswer CreatesNew)
      ⟨(App.start posts objects, rebuild getTime posts), []⟩ es)
    (hrun : (indexed getTime).machine.run
      ⟨(App.start posts objects, rebuild getTime posts), []⟩ es = some c) :
    c.core.2 = rebuild getTime c.core.1.posts :=
  (rebuilt_run hstamps hcreates hrun).index

end

/-- Ann submits a post without images, Bob opens it and likes it. -/
def postedAndFound : List (Event Call Feed.Reply) :=
  [.call (.submit (some "ann") ⟨"Carl", 0, "Duke University", "Durham", "hi", []⟩ [] "p" 0),
    .answer 0 .ok, .call (.openPost (some "bob") "p"), .call (.like 0), .answer 0 .ok]

theorem creates_postedAndFound (getTime : Option Value → Value) :
    (indexed getTime).machine.Along (Service.OnAnswer CreatesNew)
      ⟨(App.start (fun _ => none) ∅, rebuild getTime fun _ => none), []⟩ postedAndFound := by
  refine ⟨trivial, fun c hc => ?_⟩
  obtain rfl := Option.some.inj hc
  refine ⟨?_, fun c hc => ?_⟩
  · intro op hop id post _
    rfl
  obtain rfl := Option.some.inj hc
  refine ⟨trivial, fun c hc => ?_⟩
  obtain rfl := Option.some.inj hc
  refine ⟨trivial, fun c hc => ?_⟩
  obtain rfl := Option.some.inj hc
  refine ⟨?_, fun c hc => trivial⟩
  intro op hop id post heq
  obtain rfl := Option.some.inj hop
  exact absurd heq (by simp)

/-- Where no date is one that JavaScript can read, as with the timestamps of the store. -/
def noTime : Option Value → Value := fun _ => .null

theorem index_eq_rebuild_example : ∃ c, (indexed noTime).machine.run
      ⟨(App.start (fun _ => none) ∅, rebuild noTime fun _ => none), []⟩ postedAndFound = some c ∧
    ((c.core.1.posts "p").bind fun post => post "likes") = some (.strings ["bob"]) ∧
    c.core.2 = rebuild noTime c.core.1.posts := by
  have hrun : ∃ c, (indexed noTime).machine.run
      ⟨(App.start (fun _ => none) ∅, rebuild noTime fun _ => none), []⟩ postedAndFound = some c ∧
      ((c.core.1.posts "p").bind fun post => post "likes") = some (.strings ["bob"]) :=
    ⟨_, rfl, rfl⟩
  obtain ⟨c, hrun, hlikes⟩ := hrun
  exact ⟨c, hrun, hlikes, index_eq_rebuild (by simp) (creates_postedAndFound noTime) hrun⟩

end Subtle.Index
