import Subtle.Chat.ChatList
import Subtle.Lib.Recency

/-!
# One entry for every partner

The listener of the chat list may be given any changes, in any number of snapshots, with
documents that do not decode and with errors between them.

* `recentMessages_complete`: the list follows all changes, whatever snapshots they come in.
* `recentMessages_entries`: **the list has one entry for every document that has decoded,
  its last version, and the most recent change stands first**.
-/

namespace Subtle.Chat

open Subtle.Firestore Subtle.Lib

/-- The completion of the listener: for an error, or for a snapshot with its changes. -/
def ChatListVM.complete (vm : ChatListVM) :
    Option (List (Change String Fields)) → ChatListVM
  | none => vm
  | some changes => vm.handle changes

/-- The changes of all snapshots, in the order in which they are delivered. -/
def deliveredChanges (snapshots : List (Option (List (Change String Fields)))) :
    List (Change String Fields) := snapshots.flatMap fun snapshot => snapshot.getD []

theorem recentMessages_complete (vm : ChatListVM)
    (snapshots : List (Option (List (Change String Fields)))) :
    (snapshots.foldl ChatListVM.complete vm).recentMessages =
      follow RecentMessage.decode RecentMessage.id vm.recentMessages
        (deliveredChanges snapshots) := by
  induction snapshots generalizing vm with
  | nil => rfl
  | cons snapshot snapshots ih =>
    have hcons : deliveredChanges (snapshot :: snapshots) =
        snapshot.getD [] ++ deliveredChanges snapshots := List.flatMap_cons
    rw [List.foldl_cons, ih, hcons, follow_append]
    cases snapshot with
    | none => rfl
    | some changes =>
      rw [ChatListVM.complete, ChatListVM.recentMessages_handle]
      rfl

/-- **One entry for every partner**: the list shows the documents of which some change has
decoded, each once and as it decoded last, in the order in which these versions were
delivered, the most recent one first. -/
theorem recentMessages_entries (sender : String)
    (snapshots : List (Option (List (Change String Fields)))) :
    let shown := (snapshots.foldl ChatListVM.complete
      (ChatListVM.fetchRecentMessages (some sender))).recentMessages
    (∀ id, (shown.map RecentMessage.id).count id =
      if ∃ change ∈ deliveredChanges snapshots, change.id = id ∧
        RecentMessage.decode change.id change.document ≠ none then 1 else 0) ∧
    (∀ message, message ∈ shown ↔
      ∃ later, LastVersion RecentMessage.decode (deliveredChanges snapshots) message later) ∧
    shown.Pairwise fun message message' => ∃ later later',
      LastVersion RecentMessage.decode (deliveredChanges snapshots) message later ∧
      LastVersion RecentMessage.decode (deliveredChanges snapshots) message' later' ∧
      later.length < later'.length := by
  intro shown
  have hshown : shown =
      follow RecentMessage.decode RecentMessage.id [] (deliveredChanges snapshots) :=
    recentMessages_complete _ snapshots
  have hrecent := recent_follow RecentMessage.keyed_decode (deliveredChanges snapshots)
  rw [← hshown] at hrecent
  refine ⟨fun id => ?_, hrecent.mem_iff, hrecent.ordered⟩
  rw [hrecent.nodup.count]
  exact if_congr (hrecent.mem_keys_iff RecentMessage.keyed_decode id) rfl rfl

/-- The chat with Carl, then with Bob, a document that does not decode, and Carl again. -/
example : ((([some [⟨.added, "carl", (chatWith "carl" "hi" 1).2⟩,
      ⟨.added, "bob", (chatWith "bob" "hello" 2).2⟩], none, some [⟨.modified, "bob", []⟩,
      ⟨.modified, "carl", (chatWith "carl" "there?" 3).2⟩]] : List (Option (List _))).foldl
        ChatListVM.complete (ChatListVM.fetchRecentMessages (some "ann"))).recentMessages.map
          RecentMessage.text) = ["there?", "hello"] := by
  decide

end Subtle.Chat
