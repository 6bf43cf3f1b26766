import Subtle.Firestore.Rules

/-!
# Who reads a conversation

The conversation of two users is their two logs under `Messages` and their two
documents under `Recents`.  The rules for both collections ask only that the request is
authenticated: they look neither at the path nor at what is written.

* `allows_conversation`: **any signed-in user reads and writes any conversation**.
* `reads_eq_of_signedOut`: what a client that is not signed in reads does not depend on
  the store.
* `conversation_open`: both, and that a signed-in client, whoever it is, can tell two
  stores apart that differ only in a conversation.
-/

namespace Subtle.Firestore

/-! ### Reading -/

/-- The documents by path. -/
abbrev Store := List String → Option Document

/-- A document is read, or the documents of a collection are. -/
inductive Read where
  | get (path : List String)
  | list (collection : List String)

inductive Reply where
  | denied
  | document (d : Option Document)
  | documents (ds : String → Option Document)

/-- The rules allow a client to read the document at `path`. -/
def mayRead (auth : Option String) (s : Store) (path : List String) : Bool :=
  allows { auth, method := .read, path, resource := s path }

open Classical in
/-- What the client gets.  It may list a collection if it may read whatever stands in
it. -/
noncomputable def Read.reply (auth : Option String) (s : Store) : Read → Reply
  | get path => if mayRead auth s path then .document (s path) else .denied
  | list collection =>
      if ∀ id, mayRead auth s (collection ++ [id]) then
        .documents fun id => s (collection ++ [id])
      else .denied

/-- The results of a sequence of reads. -/
noncomputable def replies (auth : Option String) (s : Store) (rs : List Read) : List Reply :=
  rs.map (Read.reply auth s)

/-! ### Conversations -/

/-- The paths of the documents of a conversation. -/
inductive Conversation (a b : String) : List String → Prop
  | log (id : String) : Conversation a b ["Messages", a, b, id]
  | otherLog (id : String) : Conversation a b ["Messages", b, a, id]
  | recent : Conversation a b ["Recents", a, "Messages", b]
  | otherRecent : Conversation a b ["Recents", b, "Messages", a]

/-- The two stores are the same outside the conversation. -/
def DifferOnlyIn (a b : String) (s t : Store) : Prop :=
  ∀ path, ¬ Conversation a b path → s path = t path

/-- The conversation of any two users is their own: it is read and written by them only, a
write names its sender, and the reads of anyone else do not depend on it. -/
structure Private : Prop where
  users : ∀ a b path, Conversation a b path → ∀ (u : String) (method : Method)
    (resource : Option Document), allows ⟨some u, method, path, resource⟩ = true → u = a ∨ u = b
  sender : ∀ a b path, Conversation a b path → ∀ (u : String) (method : Method)
    (resource : Option Document) (written : Document), method = .create ∨ method = .update →
      allows ⟨some u, method, path, resource⟩ = true → written "senderId" = some (.string u)
  reads : ∀ a b c : String, c ≠ a → c ≠ b → ∀ s t, DifferOnlyIn a b s t →
    ∀ rs, replies (some c) s rs = replies (some c) t rs

variable {a b : String} {path : List String}

/-- **Any signed-in user reads and writes any conversation**, and nobody else does. -/
theorem allows_conversation (h : Conversation a b path) (auth : Option String) (method : Method)
    (resource : Option Document) : allows ⟨auth, method, path, resource⟩ = auth.isSome := by
  cases h <;> rfl

theorem allows_of_signedOut (method : Method) (path : List String) (resource : Option Document) :
    allows ⟨none, method, path, resource⟩ = false := by
  unfold allows
  split <;> cases method <;> rfl

theorem reads_eq_of_signedOut (s t : Store) (rs : List Read) :
    replies none s rs = replies none t rs := by
  have hdenied : ∀ (s : Store) (r : Read), r.reply none s = .denied := by
    intro s r
    have hno : ∀ path, mayRead none s path ≠ true := fun path =>
      Bool.eq_false_iff.mp (allows_of_signedOut _ _ _)
    cases r with
    | get path => exact if_neg (hno path)
    | list collection => exact if_neg fun hall => hno _ (hall "")
  exact List.map_congr_left fun r _ => (hdenied s r).trans (hdenied t r).symm

/-- A signed-in client reads the log of the conversation. -/
theorem exists_replies_ne (a b u : String) : ∃ s t, DifferOnlyIn a b s t ∧
    ∃ rs, replies (some u) s rs ≠ replies (some u) t rs := by
  let empty : Store := fun _ => none
  refine ⟨empty, Function.update empty ["Messages", a, b, "m"] (some fun _ => none), ?_,
    [.get ["Messages", a, b, "m"]], ?_⟩
  · intro path hpath
    refine (Function.update_of_ne ?_ _ _).symm
    rintro rfl
    exact hpath (.log "m")
  · have hmay : ∀ s : Store, mayRead (some u) s ["Messages", a, b, "m"] = true := fun s =>
      allows_conversation (Conversation.log (a := a) (b := b) "m") (some u) .read (s _)
    have hget : ∀ s : Store, Read.reply (some u) s (.get ["Messages", a, b, "m"]) =
        .document (s ["Messages", a, b, "m"]) := fun s => by rw [Read.reply, if_pos (hmay s)]
    intro heq
    have hdoc := (List.cons.inj heq).1
    rw [hget, hget, Function.update_self] at hdoc
    exact Option.some_ne_none _ (Reply.document.inj hdoc).symm

/-- **A conversation is open to every signed-in user and to nobody else**: each of them
reads and writes it, and reads that do not depend on it are those of clients that are not
signed in. -/
theorem conversation_open (a b : String) :
    (∀ path, Conversation a b path → ∀ (auth : Option String) (method : Method)
      (resource : Option Document),
        allows ⟨auth, method, path, resource⟩ = true ↔ auth ≠ none) ∧
    ∀ auth : Option String, (∀ s t, DifferOnlyIn a b s t → ∀ rs,
      replies auth s rs = replies auth t rs) ↔ auth = none := by
  constructor
  · intro path hpath auth method resource
    rw [allows_conversation hpath]
    cases auth <;> simp
  · intro auth
    cases auth with
    | none => exact iff_of_true (fun s t _ => reads_eq_of_signedOut s t) rfl
    | some u =>
      refine iff_of_false ?_ (Option.some_ne_none u)
      intro hall
      obtain ⟨s, t, hdiffer, rs, hne⟩ := exists_replies_ne a b u
      exact hne (hall s t hdiffer rs)

/-- Eve reads the log of Ann and Bob. -/
theorem conversation_not_private : ¬ Private := by
  intro h
  rcases h.users "ann" "bob" _ (.log "m") "eve" .read none rfl with heve | heve
  · exact absurd heve (by decide)
  · exact absurd heve (by decide)

end Subtle.Firestore
