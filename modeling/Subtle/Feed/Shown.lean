import Subtle.Feed.Screens

/-!
# What the lists show

What a list shows has been stored at some moment, and names the user that made it, or is a
post that was made in the list and is not stored yet, or never will be.

* `Screen.Genuine`: the invariant of one list.
* `shown_genuine`: **every post of every list and post view names the user that made it, and is
  a version that was stored or a post of the user of the list; a profile shows no post of anyone
  else**.
* `lists_entitled`: **lists write and delete posts of their user only**.
* `shown_stored`: **where no new post is rejected, every post that is shown is a stored
  version or is still being written**.
-/

namespace Subtle.Feed

open Subtle.Firestore Subtle.Lib Subtle.Storage

/-! ### The lists -/

/-- A list asks for what its user may ask for, and a profile for the posts of its user. -/
structure FeedList.Op.Fits (t : Timeline) (currentUser : Option String) (profile : Bool)
    (op : FeedList.Op) : Prop where
  entitled : ∀ o, op.backend currentUser = some o →
    ∃ user, o.1 = some user ∧ o.2.Entitled t.authors user
  mine : profile = true → ∀ load query, op = .list (.getDocuments load query) →
    ∃ user, query = .mine user ∧ currentUser = some user

/-- Where a post that is shown comes from. -/
structure Traced (t : Timeline) (currentUser : Option String) (profile : Bool) (post : Post) :
    Prop where
  held : ∃ id, t.authors.Holds id (.init currentUser post)
  source : t.Version post ∨ currentUser = some post.posterId
  own : profile = true → currentUser = some post.posterId

/-- All posts of a list are genuine, and all its operations fit. -/
structure Screen.Genuine (t : Timeline) (v : Screen) : Prop where
  posts : ∀ post ∈ v.list.core.posts, Traced t v.currentUser v.profile post
  ops : ∀ op ∈ v.list.pending, op.Fits t v.currentUser v.profile

variable {t t' : Timeline} {v v' : Screen} {currentUser : Option String} {profile : Bool}
  {op : FeedList.Op} {post : Post}

theorem FeedList.Op.Fits.grow (hgrows : t.Grows t') (h : op.Fits t currentUser profile) :
    op.Fits t' currentUser profile := by
  refine ⟨fun o ho => ?_, h.mine⟩
  obtain ⟨user, huser, hentitled⟩ := h.entitled o ho
  exact ⟨user, huser, hentitled.extend hgrows.authors⟩

theorem Traced.grow (hgrows : t.Grows t') (h : Traced t currentUser profile post) :
    Traced t' currentUser profile post := by
  obtain ⟨id, hheld⟩ := h.held
  refine ⟨⟨id, hheld.extend hgrows.authors⟩, h.source.imp_left ?_, h.own⟩
  rintro ⟨id', document, hhad, hdecode⟩
  exact ⟨id', document, hgrows.had hhad, hdecode⟩

theorem Screen.Genuine.grow (hgrows : t.Grows t') (h : v.Genuine t) : v.Genuine t' :=
  ⟨fun post hpost => (h.posts post hpost).grow hgrows, fun op hop => (h.ops op hop).grow hgrows⟩

/-- A list of the same user whose posts and operations were there or are as they should be. -/
theorem Screen.Genuine.of_list (h : v.Genuine t) {list : Config PostList FeedList.Op}
    (huser : list.core.currentUser = v.currentUser)
    (hposts : ∀ post ∈ list.core.posts,
      post ∈ v.list.core.posts ∨ Traced t v.currentUser v.profile post)
    (hops : ∀ op ∈ list.pending, op ∈ v.list.pending ∨ op.Fits t v.currentUser v.profile) :
    ({ v with list } : Screen).Genuine t := by
  have hsame : ({ v with list } : Screen).currentUser = v.currentUser := huser
  constructor
  · intro post hpost
    rw [hsame]
    exact (hposts post hpost).elim (h.posts post) id
  · intro op hop
    rw [hsame]
    exact (hops op hop).elim (h.ops op) id

theorem backend_setData {id : String} (hid : post.id = some id) :
    (FeedList.Op.setData post).backend currentUser = some (currentUser, .setData id post) := by
  show post.id.map _ = _
  rw [hid]
  rfl

theorem traced_of_setData (h : (FeedList.Op.setData post).Fits t currentUser profile)
    (hid : post.id ≠ none) : Traced t currentUser profile post := by
  obtain ⟨id, hid⟩ := Option.ne_none_iff_exists'.mp hid
  obtain ⟨user, huser, hposter, hauthor, hpictures⟩ := h.entitled _ (backend_setData hid)
  subst hposter
  exact ⟨⟨id, holds_of_author hid hauthor hpictures⟩, Or.inr huser, fun _ => huser⟩

theorem traced_of_decode (h : t.Sound) {id : String} {document : Document}
    (hhad : t.Had id document) (hdecode : Post.decode id document = some post)
    (hown : profile = true → currentUser = some post.posterId) :
    Traced t currentUser profile post := by
  exact ⟨⟨id, holds_init (h.had id document hhad) hdecode⟩, Or.inl ⟨id, document, hhad, hdecode⟩,
    hown⟩

/-! ### What the backend makes of an operation of a list -/

variable {o : Option String × Op}

/-- **The operation of a list is rightful**, whatever the app holds. -/
theorem rightful_backend (h : op.Fits t currentUser profile)
    (ho : op.backend currentUser = some o) {s : App} :
    (∃ user, o.1 = some user ∧ o.2.Rightful s t.authors user) ∧ o.2.Edits OfForm := by
  obtain ⟨user, huser, hentitled⟩ := h.entitled o ho
  cases op with
  | list op =>
    cases op with
    | upload image rest urls post =>
      obtain rfl := Option.some.inj ho
      exact ⟨⟨user, huser, hentitled, huser⟩, trivial⟩
    | getDocuments load query => exact absurd ho (Option.some_ne_none o).symm
  | setData post =>
    obtain ⟨id, -, rfl⟩ := Option.map_eq_some_iff.mp ho
    exact ⟨⟨user, huser, hentitled, trivial⟩, trivial⟩
  | delete post index =>
    obtain ⟨id, -, rfl⟩ := Option.map_eq_some_iff.mp ho
    exact ⟨⟨user, huser, hentitled, trivial⟩, trivial⟩

theorem backend_ne_response (ho : op.backend currentUser = some o) {i : Nat} :
    o.2 ≠ .response i post := by
  intro heq
  cases op with
  | list op =>
    cases op with
    | upload =>
      obtain rfl := Option.some.inj ho
      exact absurd heq (by simp)
    | getDocuments => exact absurd ho (Option.some_ne_none o).symm
  | setData | delete =>
    obtain ⟨id, -, rfl⟩ := Option.map_eq_some_iff.mp ho
    exact absurd heq (by simp)

/-- What the backend has answered leaves everything in order, with what the app would go on
to ask for. -/
theorem Timeline.Sound.commit (h : t.Sound) (hop : op.Fits t currentUser profile)
    {r : FeedList.Reply} (hcommit : t.commit currentUser op r = some t') :
    t'.Sound ∧ t.Grows t' ∧ ∀ o, op.backend currentUser = some o → ∃ new,
      Feed.attributed.answer t.config.core o r.backend = some (t'.config.core, new) ∧
        ∀ o' ∈ new, ∃ user, o'.1 = some user ∧ o'.2.Entitled t'.authors user := by
  unfold Timeline.commit at hcommit
  cases hbackend : op.backend currentUser with
  | none =>
    rw [hbackend] at hcommit
    obtain rfl := Option.some.inj hcommit
    exact ⟨h, .rfl, fun o ho => absurd ho.symm (Option.some_ne_none o)⟩
  | some o =>
    rw [hbackend] at hcommit
    obtain ⟨⟨p, new⟩, hanswer, rfl⟩ := Option.map_eq_some_iff.mp hcommit
    obtain ⟨hrightful, hedits⟩ := rightful_backend hop hbackend (s := t.config.core.1)
    have hjoined := h.attributed.join hrightful hedits
    have hanswered : Attributed p ([] ++ t.config.pending ++ new) :=
      attributed_answer hjoined hanswer
    have hattributed : Attributed p t.config.pending :=
      hanswered.mono fun op hop => List.mem_append_left _ hop
    have hreads : ∀ i post, o.2 = .response i post → t.Version post := fun i post heq =>
      absurd heq (backend_ne_response hbackend)
    obtain ⟨hsound, hgrows⟩ := @Timeline.Sound.next t { t.config with core := p } h hattributed
      (extends_answer hjoined hanswer) (Timeline.views_attributed hreads hanswer).1
      fun o' ho' _ _ _ => Or.inl ho'
    refine ⟨hsound, hgrows, fun o' ho' => ?_⟩
    obtain rfl := Option.some.inj ho'
    refine ⟨new, hanswer, fun o' ho' => ?_⟩
    obtain ⟨user, huser, hentitled, -⟩ := hanswered.rightful o' (List.mem_append_right _ ho')
    exact ⟨user, huser, hentitled⟩

/-- **The list goes on as the app does** with the uploads of a new post. -/
theorem backend_addImageHelper (s : App) (l : PostList) (urls : List URL) (post : Post)
    (images : List UIImage) :
    ∀ op ∈ FeedList.goesOn l urls post images,
      ∀ o, FeedList.Op.backend l.currentUser op = some o →
        ∃ op' ∈ s.addImageHelper urls (.addPost l.currentUser post) images,
          o = (l.currentUser, op') := by
  intro op hop o ho
  cases images with
  | cons image rest =>
    obtain rfl := List.mem_singleton.mp hop
    obtain rfl := Option.some.inj ho
    exact ⟨_, List.mem_singleton.mpr rfl, rfl⟩
  | nil =>
    obtain ⟨p, hp, rfl⟩ := List.mem_map.mp hop
    obtain ⟨rfl, huser, -⟩ := mem_finished hp
    obtain ⟨id, hid, rfl⟩ := Option.map_eq_some_iff.mp ho
    obtain ⟨user, huser⟩ := Option.ne_none_iff_exists'.mp huser
    have hid : post.id = some id := hid
    refine ⟨.setData id { post with pictures := urls }, ?_, rfl⟩
    simp only [App.addImageHelper, App.uploaded, addPost, huser, hid, List.mem_singleton]

theorem fits_addImageHelper {s : App} {l : PostList} {urls : List URL} {images : List UIImage}
    {new : List (Option String × Op)}
    (hnew : ∀ op ∈ s.addImageHelper urls (.addPost l.currentUser post) images,
      (l.currentUser, op) ∈ new)
    (hentitled : ∀ o ∈ new, ∃ user, o.1 = some user ∧ o.2.Entitled t.authors user) :
    ∀ op ∈ FeedList.goesOn l urls post images,
      FeedList.Op.Fits t l.currentUser profile op := by
  intro op hop
  constructor
  case entitled =>
    intro o ho
    obtain ⟨op', hop', rfl⟩ := backend_addImageHelper s l urls post images op hop o ho
    exact hentitled _ (hnew op' hop')
  case mine =>
    rintro - load query rfl
    rcases List.mem_append.mp hop with hop | hop
    · obtain ⟨op', hop', heq⟩ := List.mem_map.mp hop
      obtain rfl := FeedList.Op.list.inj heq
      cases images with
      | nil => exact absurd hop' List.not_mem_nil
      | cons image rest => exact absurd (List.mem_singleton.mp hop') (by simp)
    · obtain ⟨p, -, heq⟩ := List.mem_map.mp hop
      exact absurd heq (by simp)

theorem traced_addImageHelper {l : PostList} {urls : List URL} {images : List UIImage}
    (hfits : ∀ op ∈ FeedList.goesOn l urls post images,
      FeedList.Op.Fits t l.currentUser profile op) :
    ∀ p ∈ (l.addImageHelper urls post images).1.posts,
      p ∈ l.posts ∨ Traced t l.currentUser profile p := fun p hp =>
  (mem_posts_addImageHelper p hp).imp_right fun hmem =>
    traced_of_setData (hfits _ hmem) (id_of_setData hmem)

/-! ### What happens at a list -/

namespace Screen

theorem Genuine.load (h : v.Genuine t) {query : String → PostQuery}
    (hquery : v.profile = true → ∀ id, query id = .mine id) :
    ({ v with list := ⟨(v.list.core.load query).1,
        v.list.pending ++ (v.list.core.load query).2.map .list⟩ } : Screen).Genuine t := by
  refine h.of_list rfl (fun post hpost => absurd hpost List.not_mem_nil) fun op hop => ?_
  rcases List.mem_append.mp hop with hop | hop
  · exact Or.inl hop
  · obtain ⟨op', hop', rfl⟩ := List.mem_map.mp hop
    cases huser : v.list.core.currentUser with
    | none =>
      rw [PostList.load, huser] at hop'
      exact absurd hop' List.not_mem_nil
    | some user =>
      rw [PostList.load, huser] at hop'
      obtain rfl := List.mem_singleton.mp hop'
      refine Or.inr ⟨fun o ho => absurd ho (Option.some_ne_none o).symm, fun hprofile l q heq => ?_⟩
      obtain ⟨-, rfl⟩ := PostList.Op.getDocuments.inj (FeedList.Op.list.inj heq)
      exact ⟨user, hquery hprofile user, huser⟩

theorem mem_completion {query : PostQuery} {docs : List (String × Document)} {posts : List Post}
    (hposts : PostList.completion query docs = some posts) (hpost : post ∈ posts) :
    ∃ d ∈ docs, Post.decode d.1 d.2 = some post := by
  unfold PostList.completion at hposts
  split at hposts
  · exact absurd hposts (Option.some_ne_none _).symm
  · exact List.mem_filterMap.mp (Option.some.inj hposts ▸ hpost)

theorem Genuine.documents (hsound : t.Sound) (h : v.Genuine t) {load : Nat} {query : PostQuery}
    (hop : .list (.getDocuments load query) ∈ v.list.pending) {docs : List (String × Document)}
    (hdocs : ∀ d ∈ docs, t.Had d.1 d.2 ∧ query.Selects d.2) :
    ∀ posts ∈ PostList.completion query docs, ∀ post ∈ posts,
      Traced t v.currentUser v.profile post := by
  intro posts hposts post hpost
  obtain ⟨d, hd, hdecode⟩ := mem_completion hposts hpost
  obtain ⟨hhad, hselects⟩ := hdocs d hd
  refine traced_of_decode hsound hhad hdecode fun hprofile => ?_
  obtain ⟨user, rfl, huser⟩ := (h.ops _ hop).mine hprofile load query rfl
  have hread := posterId_of_decode hdecode
  cases hposter : d.2 "posterId" with
  | none =>
    rw [hposter] at hread
    exact absurd hread.symm (Option.some_ne_none _)
  | some value =>
    have hvalue : value = .string user := by simpa [PostQuery.Selects, WhereField.matches, hposter]
      using hselects
    rw [hposter, hvalue] at hread
    rw [huser]
    exact hread

/-- **The answer to an operation of a list** leaves genuine posts, if what follows an upload
fits. -/
theorem Genuine.answer (hsound : t.Sound) (h : v.Genuine t) (hop : op ∈ v.list.pending)
    {r : FeedList.Reply} {s : PostList} {new pending : List FeedList.Op}
    (hanswered : FeedList.Answered v.list.core op r s new)
    (hdocs : ∀ load query docs, op = .list (.getDocuments load query) →
      r = .list (.documents docs) → ∀ d ∈ docs, t.Had d.1 d.2 ∧ query.Selects d.2)
    (hupload : ∀ image rest urls post url, op = .list (.upload image rest urls post) →
      r = .list (.uploaded url) →
        ∀ op' ∈ FeedList.goesOn v.list.core (urls ++ [url]) post rest,
          FeedList.Op.Fits t v.currentUser v.profile op')
    (hpending : ∀ op ∈ pending, op ∈ v.list.pending) :
    ({ v with list := ⟨s, pending ++ new⟩ } : Screen).Genuine t := by
  have hops : ∀ {new : List FeedList.Op},
      (∀ op ∈ new, FeedList.Op.Fits t v.currentUser v.profile op) → ∀ op ∈ pending ++ new,
        op ∈ v.list.pending ∨ op.Fits t v.currentUser v.profile := fun hnew op hop =>
    (List.mem_append.mp hop).imp (hpending op) (hnew op)
  cases hanswered with
  | failed | uncalled | written =>
    exact h.of_list rfl (fun post hpost => Or.inl hpost) (hops (List.forall_mem_nil _))
  | loaded load query docs posts hposts =>
    have hshown := h.documents hsound hop (hdocs load query docs rfl rfl) posts hposts
    exact h.of_list rfl (fun post hpost => (List.mem_append.mp hpost).imp_right (hshown post))
      (hops (List.forall_mem_nil _))
  | uploaded image rest urls post url =>
    have hfits := hupload image rest urls post url rfl rfl
    exact h.of_list (currentUser_addImageHelper _ _ _ _) (traced_addImageHelper hfits) (hops hfits)
  | removed post index ok =>
    exact h.of_list rfl (fun post hpost => Or.inl (List.mem_of_mem_eraseIdx hpost))
      (hops (List.forall_mem_nil _))

theorem Genuine.formCompletion (hsound : t.Sound) (h : v.Genuine t) {form : PostForm}
    {images : List UIImage} {id : String} {creationDate : Int} {p : App × Authors}
    {ops : List (Option String × Op)} (hnew : t.authors.author id = none)
    (hpost : Feed.formCompletion v.currentUser form id creationDate = some post)
    (hcall : attributed.call t.config.core
      (.submit v.currentUser form images id creationDate) = some (p, ops)) :
    ({ t with config := { t.config with core := p } } : Timeline).Sound ∧
      t.Grows { t with config := { t.config with core := p } } ∧
        ({ v with list := ⟨(v.list.core.addImageHelper [] post images).1,
          v.list.pending ++ FeedList.goesOn v.list.core [] post images⟩ } : Screen).Genuine
            { t with config := { t.config with core := p } } := by
  have hnewId : NewId t.config.core (.submit v.currentUser form images id creationDate) := hnew
  have hattributed := attributed_call hsound.attributed hnewId hcall
  have hsame : p.1 = t.config.core.1 := eq_of_submit hcall
  have hgrows : t.Grows { t with config := { t.config with core := p } } :=
    ⟨extends_call hnewId hcall, fun hhad => hhad⟩
  refine ⟨⟨hattributed.mono fun op hop => List.mem_append_left _ hop, fun id document hhad =>
    (hsound.had id document hhad).extend hgrows.authors,
      fun vm hvm => hsound.views vm (hsame ▸ hvm), hsound.reads⟩, hgrows, ?_⟩
  have hentitled : ∀ o ∈ ops, ∃ user, o.1 = some user ∧ o.2.Entitled p.2 user := by
    intro o ho
    obtain ⟨user, huser, hentitled, -⟩ := hattributed.rightful o (List.mem_append_right _ ho)
    exact ⟨user, huser, hentitled⟩
  have hfits : ∀ op ∈ _, FeedList.Op.Fits _ _ v.profile op :=
    fits_addImageHelper (t := { t with config := { t.config with core := p } })
      (mem_submit hpost hcall) hentitled
  refine (h.grow hgrows).of_list ?_ (traced_addImageHelper hfits) fun op hop => ?_
  · exact currentUser_addImageHelper _ _ _ _
  · exact (List.mem_append.mp hop).imp_right (hfits op)

theorem Genuine.delete (h : v.Genuine t) {index : Nat}
    (hpost : v.list.core.posts[index]? = some post) :
    ({ v with list := ⟨v.list.core,
      v.list.pending ++ FeedList.deletePost v.list.core post⟩ } : Screen).Genuine t := by
  refine h.of_list rfl (fun post hpost => Or.inl hpost) fun op hop => ?_
  rcases List.mem_append.mp hop with hop | hop
  · exact Or.inl hop
  · obtain ⟨id, hheld⟩ := (h.posts post (List.mem_of_getElem? hpost)).held
    obtain ⟨index, rfl, huser⟩ := FeedList.mem_deletePost hop
    refine Or.inr ⟨fun o ho => ?_, fun _ load query heq => absurd heq (by simp)⟩
    obtain ⟨id', hid', rfl⟩ := Option.map_eq_some_iff.mp ho
    obtain rfl := Option.some.inj (hheld.id_eq.symm.trans hid')
    exact ⟨post.posterId, huser, hheld.author⟩

/-- An app that has ended shows nothing and asks for nothing new. -/
theorem Genuine.quit (h : v.Genuine t) (k : Nat) : (v.quit k).Genuine t :=
  ⟨fun _ hpost => absurd hpost List.not_mem_nil,
    fun op hop => h.ops op (List.mem_of_mem_eraseIdx hop)⟩

/-- **What happens at a list** leaves the store and the list in order. -/
theorem Genuine.act (hsound : t.Sound) (h : v.Genuine t) {e : Event} (hserved : v.Served t e)
    (hact : Acted t v e t' v') : t'.Sound ∧ t.Grows t' ∧ v'.Genuine t' := by
  cases hact with
  | loaded _ query hquery => exact ⟨hsound, .rfl, h.load hquery⟩
  | formCompleted form images id creationDate post p ops hpost hcall =>
    exact h.formCompletion hsound hserved hpost hcall
  | opened index post hpost =>
    have hpost := h.posts post (List.mem_of_getElem? hpost)
    obtain ⟨id, hheld⟩ := hpost.held
    obtain ⟨hsound', hgrows⟩ := hsound.openPost hpost.source hheld
    exact ⟨hsound', hgrows, h.grow hgrows⟩
  | deleted index post hpost => exact ⟨hsound, .rfl, h.delete hpost⟩
  | answered k r op _ s new hop hcommit hanswered =>
    have hmem := List.mem_of_getElem? hop
    obtain ⟨hsound', hgrows, hbackend⟩ := hsound.commit (h.ops op hmem) hcommit
    refine ⟨hsound', hgrows, (h.grow hgrows).answer hsound' hmem hanswered ?_ ?_
      fun op => List.mem_of_mem_eraseIdx⟩
    · rintro load query docs rfl rfl d hd
      obtain ⟨hhad, hselects⟩ := hserved load query hop d hd
      exact ⟨hgrows.had hhad, hselects⟩
    · rintro image rest urls post url rfl rfl
      obtain ⟨new', hanswer', hentitled⟩ := hbackend _ rfl
      exact fits_addImageHelper (mem_uploaded hanswer') hentitled
  | ended k r op _ hop hcommit hended =>
    obtain ⟨hsound', hgrows, -⟩ := hsound.commit (h.ops op (List.mem_of_getElem? hop)) hcommit
    exact ⟨hsound', hgrows, (h.grow hgrows).quit k⟩

/-! ### Writes that are not rejected -/

/-- No new post of the list is rejected. -/
def Accepted (v : Screen) : Event → Prop
  | .answer k (.committed false) => ∀ post, v.list.pending[k]? ≠ some (.setData post)
  | _ => True

/-- Every post of the list was stored, or its write is outstanding. -/
structure Stored (t : Timeline) (v : Screen) : Prop where
  posts : ∀ post ∈ v.list.core.posts, t.Version post ∨ .setData post ∈ v.list.pending
  ids : ∀ post, .setData post ∈ v.list.pending → post.id ≠ none

theorem Stored.grow (hgrows : t.Grows t') (h : v.Stored t) : v.Stored t' := by
  refine ⟨fun post hpost => (h.posts post hpost).imp_left ?_, h.ids⟩
  rintro ⟨id, document, hhad, hdecode⟩
  exact ⟨id, document, hgrows.had hhad, hdecode⟩

/-- Posts and operations are added, and a write leaves only once its post is stored. -/
theorem Stored.of_list (h : v.Stored t) {list : Config PostList FeedList.Op}
    (hposts : ∀ post ∈ list.core.posts,
      post ∈ v.list.core.posts ∨ t.Version post ∨ .setData post ∈ list.pending)
    (hkept : ∀ post, .setData post ∈ v.list.pending →
      t.Version post ∨ .setData post ∈ list.pending)
    (hids : ∀ post, .setData post ∈ list.pending →
      .setData post ∈ v.list.pending ∨ post.id ≠ none) :
    ({ v with list } : Screen).Stored t := by
  refine ⟨fun post hpost => ?_, fun post hpost => (hids post hpost).elim (h.ids post) id⟩
  rcases hposts post hpost with hold | hnew
  · exact (h.posts post hold).elim Or.inl (hkept post)
  · exact hnew

theorem Stored.issue (h : v.Stored t) {s : PostList} {new : List FeedList.Op}
    (hposts : ∀ post ∈ s.posts, post ∈ v.list.core.posts ∨ .setData post ∈ new)
    (hnew : ∀ post, .setData post ∈ new → post.id ≠ none) :
    ({ v with list := ⟨s, v.list.pending ++ new⟩ } : Screen).Stored t := by
  refine h.of_list (fun post hpost => (hposts post hpost).imp_right fun hmem => Or.inr ?_)
    (fun post hpost => Or.inr (List.mem_append_left _ hpost)) fun post hpost => ?_
  · exact List.mem_append_right _ hmem
  · exact (List.mem_append.mp hpost).imp_right (hnew post)

theorem mem_eraseIdx_or {k : Nat} (hop : v.list.pending[k]? = some op) {op' : FeedList.Op}
    (h : op' ∈ v.list.pending) : op' = op ∨ op' ∈ v.list.pending.eraseIdx k := by
  obtain ⟨hk, rfl⟩ := List.getElem?_eq_some_iff.mp hop
  exact List.mem_cons.mp ((List.getElem_cons_eraseIdx_perm hk).mem_iff.mpr h)

/-- **An answer that rejects no new post** leaves every post stored or being written. -/
theorem Stored.answer (h : v.Stored t) {k : Nat} (hop : v.list.pending[k]? = some op)
    {r : FeedList.Reply} {s : PostList} {new : List FeedList.Op}
    (hanswered : FeedList.Answered v.list.core op r s new)
    (hdocs : ∀ load query docs, op = .list (.getDocuments load query) →
      r = .list (.documents docs) → ∀ d ∈ docs, t.Had d.1 d.2)
    (hcommitted : ∀ post, op = .setData post → t.Version post) :
    ({ v with list := ⟨s, v.list.pending.eraseIdx k ++ new⟩ } : Screen).Stored t := by
  have hkept : ∀ {new} post, .setData post ∈ v.list.pending →
      t.Version post ∨ .setData post ∈ v.list.pending.eraseIdx k ++ new := by
    intro new post hpost
    rcases mem_eraseIdx_or hop hpost with heq | hmem
    · exact Or.inl (hcommitted post heq.symm)
    · exact Or.inr (List.mem_append_left _ hmem)
  have hids : ∀ {new}, (∀ post, .setData post ∈ new → post.id ≠ none) → ∀ post,
      .setData post ∈ v.list.pending.eraseIdx k ++ new →
        .setData post ∈ v.list.pending ∨ post.id ≠ none := fun hnew post hpost =>
    (List.mem_append.mp hpost).imp List.mem_of_mem_eraseIdx (hnew post)
  cases hanswered with
  | failed | uncalled | written =>
    exact h.of_list (fun post hpost => Or.inl hpost) hkept
      (hids fun _ hnone => absurd hnone List.not_mem_nil)
  | loaded load query docs posts hposts =>
    refine h.of_list (fun post hpost => ?_) hkept
      (hids fun _ hnone => absurd hnone List.not_mem_nil)
    refine (List.mem_append.mp hpost).imp_right fun hmem => Or.inl ?_
    obtain ⟨d, hd, hdecode⟩ := mem_completion hposts hmem
    exact ⟨d.1, d.2, hdocs load query docs rfl rfl d hd, hdecode⟩
  | uploaded image rest urls post url =>
    refine h.of_list (fun p hp => ?_) hkept (hids fun p hp => id_of_setData hp)
    exact (mem_posts_addImageHelper p hp).imp_right fun hmem =>
      Or.inr (List.mem_append_right _ hmem)
  | removed post index ok =>
    exact h.of_list (fun post hpost => Or.inl (List.mem_of_mem_eraseIdx hpost)) hkept
      (hids fun _ hnone => absurd hnone List.not_mem_nil)

theorem version_of_commit {post : Post} (hid : post.id ≠ none)
    (hcommit : t.commit currentUser (.setData post) (.committed true) = some t') :
    t'.Version post := by
  obtain ⟨id, hid⟩ := Option.ne_none_iff_exists'.mp hid
  simp only [Timeline.commit, backend_setData hid] at hcommit
  obtain ⟨⟨⟨s, a⟩, new⟩, hanswer, rfl⟩ := Option.map_eq_some_iff.mp hcommit
  obtain ⟨-, hsigned⟩ := Service.watched_answer hanswer
  obtain ⟨ops, hanswer, -⟩ := Service.signed_answer hsigned
  obtain ⟨rfl, -⟩ := Prod.mk.inj (Option.some.inj hanswer)
  refine ⟨id, post.encode, Timeline.had_next.mpr (Or.inr (Function.update_self _ _ _)), ?_⟩
  rw [decode_encode, ← hid]

theorem Stored.act (h : v.Stored t) {e : Event} (hserved : v.Served t e)
    (haccepted : v.Accepted e) (hgrows : t.Grows t') (hact : Acted t v e t' v') :
    v'.Stored t' := by
  cases hact with
  | loaded _ query hquery =>
    refine h.issue (fun post hpost => absurd hpost List.not_mem_nil) fun post hpost => ?_
    obtain ⟨op, -, heq⟩ := List.mem_map.mp hpost
    exact absurd heq (by simp)
  | formCompleted form images id creationDate post p ops hpost hcall =>
    exact (h.grow hgrows).issue mem_posts_addImageHelper fun post => id_of_setData
  | opened index post hpost => exact h.grow hgrows
  | deleted index post hpost =>
    refine h.issue (fun post hpost => Or.inl hpost) fun post hpost => ?_
    obtain ⟨index, heq, -⟩ := FeedList.mem_deletePost hpost
    exact absurd heq (by simp)
  | answered k r op _ s new hop hcommit hanswered =>
    refine (h.grow hgrows).answer hop hanswered ?_ ?_
    · rintro load query docs rfl rfl d hd
      exact hgrows.had (hserved load query hop d hd).1
    · rintro post rfl
      have hid := h.ids post (List.mem_of_getElem? hop)
      cases hanswered with
      | written post ok =>
        cases ok with
        | true => exact version_of_commit hid hcommit
        | false => exact absurd hop (haccepted post)
  | ended k r op _ hop hcommit hended =>
    exact ⟨fun post hpost => absurd hpost List.not_mem_nil,
      fun post hpost => h.ids post (List.mem_of_mem_eraseIdx hpost)⟩

end Screen

/-! ### Runs -/

section

variable {posts : String → Option Document} {objects : Finset URL} {a : Authors}
  {es : List (Serving.Event (Event Call Reply) (Bool × Option String × Nat) Screen.Event)}
  {c : Serving Timeline Screen}

theorem Screen.genuine_init (n : Bool × Option String × Nat) : (Screen.init n).Genuine t := by
  obtain ⟨profile, currentUser, loadAmount⟩ := n
  refine ⟨fun post hpost => absurd hpost List.not_mem_nil, fun op hop => ?_⟩
  obtain ⟨op', hop', rfl⟩ := List.mem_map.mp hop
  cases currentUser with
  | none => exact absurd hop' List.not_mem_nil
  | some user =>
    obtain rfl := List.mem_singleton.mp hop'
    refine ⟨fun o ho => absurd ho (Option.some_ne_none o).symm, fun hprofile load query heq => ?_⟩
    obtain ⟨-, rfl⟩ := PostList.Op.getDocuments.inj (FeedList.Op.list.inj heq)
    obtain rfl : profile = true := hprofile
    exact ⟨user, rfl, rfl⟩

theorem Screen.stored_init (n : Bool × Option String × Nat) : (Screen.init n).Stored t := by
  refine ⟨fun post hpost => absurd hpost List.not_mem_nil, fun post hpost => ?_⟩
  obtain ⟨op, -, heq⟩ := List.mem_map.mp hpost
  exact absurd heq (by simp)

theorem screens_genuine
    (hposts : ∀ id document, posts id = some document → a.Ascribes id document)
    (hobjects : ∀ url id, a.home url = some id → url ∈ objects)
    (hserved : screens.Along (Serving.OnStep Timeline.NewIds Screen.Served)
      ⟨Timeline.start posts objects a, []⟩ es)
    (hrun : screens.run ⟨Timeline.start posts objects a, []⟩ es = some c) :
    c.core.Sound ∧ ∀ v ∈ c.clients, v.Genuine c.core := by
  refine Machine.serving_inv (E := Timeline.Grows) ?_ ?_ ?_ ?_
    (Timeline.sound_start hposts hobjects) (List.forall_mem_nil _) hserved hrun
  · intro t e t' hsound hnew hstep
    exact Timeline.sound_step hsound hnew hstep
  · intro t n _
    exact Screen.genuine_init n
  · intro t v e t' v' hsound hgenuine hserved hact
    exact hgenuine.act hsound hserved (Screen.acted_of_act hact)
  · intro t t' v hgrows hgenuine
    exact hgenuine.grow hgrows

/-- **A post that is shown names the user that made it.**  In a list it lists images of its own,
is a version that was stored or one of the user of the list, and in a profile always the latter;
in a post view it is a version that was stored or one of the user of the view. -/
theorem shown_genuine
    (hposts : ∀ id document, posts id = some document → a.Ascribes id document)
    (hobjects : ∀ url id, a.home url = some id → url ∈ objects)
    (hserved : screens.Along (Serving.OnStep Timeline.NewIds Screen.Served)
      ⟨Timeline.start posts objects a, []⟩ es)
    (hrun : screens.run ⟨Timeline.start posts objects a, []⟩ es = some c) :
    (∀ v ∈ c.clients, ∀ post ∈ v.list.core.posts,
      (∃ id, post.id = some id ∧ c.core.authors.author id = some post.posterId ∧
        c.core.authors.Uploaded id post.pictures) ∧
        (c.core.Version post ∨ v.currentUser = some post.posterId) ∧
        (v.profile = true → v.currentUser = some post.posterId)) ∧
    ∀ vm ∈ c.core.config.core.1.vms,
      (∃ id, vm.post.id = some id ∧ c.core.authors.author id = some vm.post.posterId) ∧
        (c.core.Version vm.post ∨ vm.currentUser = some vm.post.posterId) := by
  obtain ⟨hsound, hgenuine⟩ := screens_genuine hposts hobjects hserved hrun
  refine ⟨fun v hv post hpost => ?_, fun vm hvm => ?_⟩
  · have h := (hgenuine v hv).posts post hpost
    obtain ⟨id, hheld⟩ := h.held
    exact ⟨⟨id, hheld.id_eq, hheld.author, hheld.edit⟩, h.source, h.own⟩
  · obtain ⟨id, hheld⟩ := hsound.attributed.forms vm hvm
    exact ⟨⟨id, hheld.id_eq, hheld.author⟩, hsound.views vm hvm⟩

/-- Bob makes a post in his feed; it is stored, and he finds it in his profile and opens it. -/
def bobsScreens : List
    (Serving.Event (Event Call Reply) (Bool × Option String × Nat) Screen.Event) :=
  [.join (false, some "bob", 100),
    .act 0 (.formCompletion ⟨"Carl", 0, "Duke University", "Durham", "hi", []⟩ ["image"] "p" 1),
    .act 0 (.answer 1 (.list (.uploaded "u"))), .act 0 (.answer 1 (.committed true)),
    .join (true, some "bob", 100),
    .act 1 (.answer 0 (.list (.documents [("p", PostList.bobsPost.encode)]))),
    .act 1 (.openPost 0)]

/-- Bob deletes the post in his feed twice; the second deletion ends the app of the feed. -/
def bobsDeletions : List
    (Serving.Event (Event Call Reply) (Bool × Option String × Nat) Screen.Event) :=
  [.act 0 (.delete 0), .act 0 (.delete 0), .act 0 (.answer 1 (.committed true)),
    .act 0 (.answer 1 (.committed true))]

theorem served_bobsScreens : screens.Along (Serving.OnStep Timeline.NewIds fun t v e =>
    v.Served t e ∧ v.Accepted e) ⟨Timeline.start (fun _ => none) ∅ .none, []⟩ bobsScreens := by
  refine Machine.along_cons rfl trivial (Machine.along_cons rfl ?_ (Machine.along_cons rfl ?_
    (Machine.along_cons rfl ?_ (Machine.along_cons rfl trivial
      (Machine.along_cons rfl ?_ (Machine.along_cons rfl ?_ trivial))))))
  · rintro v hv
    obtain rfl := Option.some.inj hv
    exact ⟨rfl, trivial⟩
  · rintro v -
    exact ⟨trivial, trivial⟩
  · rintro v -
    exact ⟨trivial, trivial⟩
  · rintro v hv
    obtain rfl := Option.some.inj hv
    refine ⟨fun load query hquery d hd => ?_, trivial⟩
    obtain rfl := List.mem_singleton.mp hd
    obtain ⟨-, rfl⟩ := PostList.Op.getDocuments.inj (FeedList.Op.list.inj (Option.some.inj hquery))
    refine ⟨⟨_, List.mem_append_right _ (List.mem_singleton.mpr rfl), rfl⟩, ?_⟩
    simp [PostQuery.Selects, WhereField.matches]
    rfl
  · rintro v -
    exact ⟨trivial, trivial⟩

theorem served_bobsDeletions {c : Serving Timeline Screen} :
    screens.Along (Serving.OnStep Timeline.NewIds Screen.Served) c bobsDeletions :=
  ⟨fun _ _ => trivial, fun _ _ => ⟨fun _ _ => trivial, fun _ _ => ⟨fun _ _ => trivial, fun _ _ =>
    ⟨fun _ _ => trivial, fun _ _ => trivial⟩⟩⟩⟩

theorem shown_genuine_example : ∃ c, screens.run
      ⟨Timeline.start (fun _ => none) ∅ .none, []⟩ (bobsScreens ++ bobsDeletions) = some c ∧
    c.core.config.core.1.posts "p" = none ∧ c.clients.map Screen.ended = [true, false] ∧
    (∃ v ∈ c.clients, v.profile = true ∧ ∃ post ∈ v.list.core.posts, post.id = some "p" ∧
      v.currentUser = some post.posterId) ∧
    ∃ vm ∈ c.core.config.core.1.vms, vm.post.id = some "p" ∧
      c.core.authors.author "p" = some vm.post.posterId := by
  have hrun : ∃ c, screens.run ⟨Timeline.start (fun _ => none) ∅ .none, []⟩
        (bobsScreens ++ bobsDeletions) = some c ∧
      c.core.config.core.1.posts "p" = none ∧ c.clients.map Screen.ended = [true, false] ∧
      (∃ v ∈ c.clients, v.profile = true ∧ ∃ post ∈ v.list.core.posts, post.id = some "p") ∧
        ∃ vm ∈ c.core.config.core.1.vms, vm.post.id = some "p" :=
    ⟨_, rfl, rfl, rfl, ⟨_, List.mem_cons_of_mem _ List.mem_cons_self, rfl, _, List.mem_cons_self,
      rfl⟩, _, List.mem_cons_self, rfl⟩
  obtain ⟨c, hrun, hgone, hended, ⟨v, hv, hprofile, post, hpost, hid⟩, vm, hvm, hvmId⟩ := hrun
  have hserved := Machine.along_append.mpr
    ⟨served_bobsScreens.mono fun _ _ => Serving.OnStep.mono fun _ _ _ h => h.1,
      fun _ _ => served_bobsDeletions⟩
  obtain ⟨hlists, hviews⟩ := shown_genuine (by simp) (by simp [Authors.none]) hserved hrun
  obtain ⟨-, -, hown⟩ := hlists v hv post hpost
  obtain ⟨⟨id, hid', hauthor⟩, -⟩ := hviews vm hvm
  obtain rfl := Option.some.inj (hvmId.symm.trans hid')
  exact ⟨c, hrun, hgone, hended, ⟨v, hv, hprofile, post, hpost, hid, hown hprofile⟩, vm, hvm,
    hvmId, hauthor⟩

/-- **Lists write and delete posts of their user only**, and upload for them. -/
theorem lists_entitled
    (hposts : ∀ id document, posts id = some document → a.Ascribes id document)
    (hobjects : ∀ url id, a.home url = some id → url ∈ objects)
    (hserved : screens.Along (Serving.OnStep Timeline.NewIds Screen.Served)
      ⟨Timeline.start posts objects a, []⟩ es)
    (hrun : screens.run ⟨Timeline.start posts objects a, []⟩ es = some c) :
    (∀ id document, c.core.Had id document → c.core.authors.Ascribes id document) ∧
    (∀ o ∈ c.core.config.pending, ∃ user, o.1 = some user ∧ o.2.Entitled c.core.authors user) ∧
    ∀ v ∈ c.clients, ∀ op ∈ v.list.pending, ∀ o, op.backend v.currentUser = some o →
      ∃ user, o.1 = some user ∧ o.2.Entitled c.core.authors user := by
  obtain ⟨hsound, hgenuine⟩ := screens_genuine hposts hobjects hserved hrun
  refine ⟨hsound.had, fun o ho => ?_, fun v hv op hop => ((hgenuine v hv).ops op hop).entitled⟩
  obtain ⟨user, huser, hentitled, -⟩ := hsound.attributed.rightful o ho
  exact ⟨user, huser, hentitled⟩

theorem lists_entitled_example : ∃ c, screens.run
      ⟨Timeline.start (fun _ => none) ∅ .none, []⟩ (bobsScreens ++ bobsDeletions.take 1) = some c ∧
    ∃ v ∈ c.clients, .delete PostList.bobsPost 0 ∈ v.list.pending ∧
      ∃ user, v.currentUser = some user ∧
        (Op.deleteDocument "p").Entitled c.core.authors user := by
  have hrun : ∃ c, screens.run ⟨Timeline.start (fun _ => none) ∅ .none, []⟩
        (bobsScreens ++ bobsDeletions.take 1) = some c ∧
      ∃ v ∈ c.clients, .delete PostList.bobsPost 0 ∈ v.list.pending :=
    ⟨_, rfl, _, List.mem_cons_self, List.mem_cons_of_mem _ List.mem_cons_self⟩
  obtain ⟨c, hrun, v, hv, hop⟩ := hrun
  have hserved : screens.Along (Serving.OnStep Timeline.NewIds Screen.Served)
      ⟨Timeline.start (fun _ => none) ∅ .none, []⟩ (bobsScreens ++ bobsDeletions.take 1) :=
    Machine.along_append.mpr
      ⟨served_bobsScreens.mono fun _ _ => Serving.OnStep.mono fun _ _ _ h => h.1,
        fun _ _ => ⟨fun _ _ => trivial, fun _ _ => trivial⟩⟩
  obtain ⟨-, -, hentitled⟩ := lists_entitled (by simp) (by simp [Authors.none]) hserved hrun
  exact ⟨c, hrun, v, hv, hop, hentitled v hv _ hop _ rfl⟩

/-- **Where no new post is rejected, every post that is shown is a version that was stored or
is still being written.** -/
theorem shown_stored
    (hposts : ∀ id document, posts id = some document → a.Ascribes id document)
    (hobjects : ∀ url id, a.home url = some id → url ∈ objects)
    (hserved : screens.Along (Serving.OnStep Timeline.NewIds fun t v e =>
      v.Served t e ∧ v.Accepted e) ⟨Timeline.start posts objects a, []⟩ es)
    (hrun : screens.run ⟨Timeline.start posts objects a, []⟩ es = some c)
    (hv : v ∈ c.clients) (hpost : post ∈ v.list.core.posts) :
    c.core.Version post ∨ .setData post ∈ v.list.pending := by
  have hinv : c.core.Sound ∧ ∀ v ∈ c.clients, v.Genuine c.core ∧ v.Stored c.core := by
    refine Machine.serving_inv (E := Timeline.Grows) (J := fun t v => v.Genuine t ∧ v.Stored t)
      ?_ ?_ ?_ ?_ (Timeline.sound_start hposts hobjects) (List.forall_mem_nil _) hserved hrun
    · intro t e t' hsound hnew hstep
      exact Timeline.sound_step hsound hnew hstep
    · intro t n _
      exact ⟨Screen.genuine_init n, Screen.stored_init n⟩
    · rintro t v e t' v' hsound ⟨hgenuine, hstored⟩ ⟨hserved, haccepted⟩ hact
      have hacted := Screen.acted_of_act hact
      obtain ⟨hsound', hgrows, hgenuine'⟩ := hgenuine.act hsound hserved hacted
      exact ⟨hsound', hgrows, hgenuine', hstored.act hserved haccepted hgrows hacted⟩
    · rintro t t' v hgrows ⟨hgenuine, hstored⟩
      exact ⟨hgenuine.grow hgrows, hstored.grow hgrows⟩
  exact (hinv.2 v hv).2.posts post hpost

theorem shown_stored_example : ∃ c, screens.run
      ⟨Timeline.start (fun _ => none) ∅ .none, []⟩ bobsScreens = some c ∧
    ∃ v ∈ c.clients, v.profile = false ∧ v.list.core.posts = [PostList.bobsPost] ∧
      c.core.Version PostList.bobsPost := by
  have hrun : ∃ c, screens.run ⟨Timeline.start (fun _ => none) ∅ .none, []⟩ bobsScreens = some c ∧
      ∃ v ∈ c.clients, v.profile = false ∧ v.list.core.posts = [PostList.bobsPost] ∧
        v.list.pending = [.list (.getDocuments 1 (.newest 100))] :=
    ⟨_, rfl, _, List.mem_cons_self, rfl, rfl, rfl⟩
  obtain ⟨c, hrun, v, hv, hprofile, hposts, hpending⟩ := hrun
  refine ⟨c, hrun, v, hv, hprofile, hposts, ?_⟩
  have hpost : PostList.bobsPost ∈ v.list.core.posts := hposts ▸ List.mem_cons_self
  rcases shown_stored (by simp) (by simp [Authors.none]) served_bobsScreens hrun hv hpost with
    hversion | hwriting
  · exact hversion
  · rw [hpending] at hwriting
    exact absurd (List.mem_singleton.mp hwriting) (by simp)

end

end Subtle.Feed
