import Subtle.Feed.Post
import Subtle.Lib.Gregorian
import Mathlib.Data.Set.Basic

/-!
# The age filter of the feed

`loadFilteredPosts` turns the ages of the filter into bounds for the birthday: the
days so many years ago, or for one single age the year so many years ago, without its
first moment and its last day.  `calcAge` counts completed years.

* `whereFields`: the query.
* `Misjudged`: the birthdays for which the two differ.
* `selected_iff`: **the query selects the posts of the ages shown exactly when no post
  of a matching university has such a birthday**.
-/

namespace Subtle.Feed

open Subtle.Firestore Subtle.Lib Subtle.Lib.Gregorian

/-! ### The ages shown -/

/-- `PostVM.calcAge` at the time `now`. -/
def calcAge (calendar : Calendar) (now birthday : Int) : Int := calendar.yearsBetween birthday now

/-! ### The query -/

inductive Comparison where
  | isEqualTo
  | isLessThan
  | isLessThanOrEqualTo
  | isGreaterThan
  | isGreaterThanOrEqualTo
  deriving DecidableEq

/-- `whereField(field, comparison: value)` -/
structure WhereField where
  field : String
  comparison : Comparison
  value : Value
  deriving DecidableEq

/-- A document matches by a value of the same type. -/
def WhereField.matches (w : WhereField) (document : Document) : Bool :=
  match w.comparison, document w.field, w.value with
  | .isEqualTo, some v, v' => v = v'
  | .isLessThan, some (.timestamp t), .timestamp t' => t < t'
  | .isLessThanOrEqualTo, some (.timestamp t), .timestamp t' => t ≤ t'
  | .isGreaterThan, some (.timestamp t), .timestamp t' => t > t'
  | .isGreaterThanOrEqualTo, some (.timestamp t), .timestamp t' => t ≥ t'
  | _, _, _ => false

/-- The where-clauses of `FirestoreService.loadFilteredPosts`, called at the time `now`. -/
def whereFields (calendar : Calendar) (now : Int) (uniQuery : String)
    (minAgeQuery maxAgeQuery : Nat) : List WhereField :=
  let minAgeBirthday := calendar.dateByAddingYears (-1 * minAgeQuery) now
  let maxAgeBirthday := calendar.dateByAddingYears (-1 * maxAgeQuery) now
  let minDateTime := calendar.firstDay minAgeBirthday
  let maxDateTime := calendar.lastDay maxAgeBirthday
  if uniQuery ≠ "" then
    if minAgeQuery = maxAgeQuery then
      [⟨"birthday", .isLessThan, .timestamp maxDateTime⟩,
        ⟨"birthday", .isGreaterThan, .timestamp minDateTime⟩,
        ⟨"university", .isEqualTo, .string uniQuery⟩]
    else
      [⟨"birthday", .isLessThan, .timestamp minAgeBirthday⟩,
        ⟨"birthday", .isGreaterThan, .timestamp maxAgeBirthday⟩,
        ⟨"university", .isEqualTo, .string uniQuery⟩]
  else
    if minAgeQuery = maxAgeQuery then
      [⟨"birthday", .isLessThan, .timestamp maxDateTime⟩,
        ⟨"birthday", .isGreaterThan, .timestamp minDateTime⟩]
    else
      [⟨"birthday", .isLessThanOrEqualTo, .timestamp minAgeBirthday⟩,
        ⟨"birthday", .isGreaterThanOrEqualTo, .timestamp maxAgeBirthday⟩]

/-- The query selects the post. -/
def Selected (calendar : Calendar) (now : Int) (uniQuery : String) (minAgeQuery maxAgeQuery : Nat)
    (post : Post) : Prop :=
  ∀ w ∈ whereFields calendar now uniQuery minAgeQuery maxAgeQuery, w.matches post.encode = true

instance (calendar : Calendar) (now : Int) (uniQuery : String) (minAgeQuery maxAgeQuery : Nat)
    (post : Post) : Decidable (Selected calendar now uniQuery minAgeQuery maxAgeQuery post) :=
  inferInstanceAs (Decidable (∀ w ∈ _, _))

/-- The post is of a university that the filter asks for. -/
def OfUniversity (uniQuery : String) (post : Post) : Prop :=
  uniQuery ≠ "" → post.university = uniQuery

/-- The age shown is in the range. -/
def OfAge (calendar : Calendar) (now : Int) (minAge maxAge : Nat) (post : Post) : Prop :=
  minAge ≤ calcAge calendar now post.birthday ∧ calcAge calendar now post.birthday ≤ maxAge

instance (calendar : Calendar) (now : Int) (minAge maxAge : Nat) (post : Post) :
    Decidable (OfAge calendar now minAge maxAge post) := inferInstanceAs (Decidable (_ ∧ _))

/-! ### Where they differ -/

/-- The birthdays that a range of ages misjudges: of the last age, but not on the very
day; on the day before or after a leap day; and of those who are not born yet, where
their age counts as 0. -/
def MisjudgedByRange (minAge maxAge : Nat) (birthday now : Int) : Prop :=
  (birthday < addYears (-maxAge) now ∧ now < addYears (maxAge + 1) birthday) ∨
  (addYears (-minAge) now < birthday ∧ birthday ≤ now ∧ addYears minAge birthday ≤ now) ∨
  (minAge = 0 ∧ now < birthday ∧ addYears (-1) birthday < now)

/-- The two birthdays that the range leaves out where a university is asked for. -/
def AtBounds (minAge maxAge : Nat) (birthday now : Int) : Prop :=
  birthday = addYears (-maxAge) now ∨ birthday = addYears (-minAge) now

/-- The birthdays that a single age misjudges: of the year, but still to come; of the
age, but before the year or at its first moment; or on its last day or later; and of
those who are not born yet. -/
def MisjudgedByYear (age : Nat) (birthday now : Int) : Prop :=
  (1 ≤ age ∧ startOfYear (year now - age) < birthday ∧
    birthday < startOfLastDay (year now - age) ∧ now < addYears age birthday) ∨
  (birthday ≤ startOfYear (year now - age) ∧ now < addYears (age + 1) birthday) ∨
  (startOfLastDay (year now - age) ≤ birthday ∧ birthday ≤ now ∧ addYears age birthday ≤ now) ∨
  (age = 0 ∧ startOfLastDay (year now - age) ≤ birthday ∧ now < birthday ∧
    addYears (-1) birthday < now)

/-- The birthdays that the filter misjudges at the time `now`. -/
def Misjudged (calendar : Calendar) (now : Int) (uniQuery : String) (minAge maxAge : Nat)
    (birthday : Int) : Prop :=
  if minAge = maxAge then
    MisjudgedByYear minAge (calendar.localTime birthday) (calendar.localTime now)
  else
    MisjudgedByRange minAge maxAge (calendar.localTime birthday) (calendar.localTime now) ∨
      uniQuery ≠ "" ∧ AtBounds minAge maxAge (calendar.localTime birthday) (calendar.localTime now)

instance (minAge maxAge : Nat) (birthday now : Int) :
    Decidable (MisjudgedByRange minAge maxAge birthday now) := inferInstanceAs (Decidable (_ ∨ _))

instance (minAge maxAge : Nat) (birthday now : Int) :
    Decidable (AtBounds minAge maxAge birthday now) := inferInstanceAs (Decidable (_ ∨ _))

instance (age : Nat) (birthday now : Int) : Decidable (MisjudgedByYear age birthday now) :=
  inferInstanceAs (Decidable (_ ∨ _))

instance (calendar : Calendar) (now : Int) (uniQuery : String) (minAge maxAge : Nat)
    (birthday : Int) : Decidable (Misjudged calendar now uniQuery minAge maxAge birthday) :=
  inferInstanceAs (Decidable (if minAge = maxAge then MisjudgedByYear minAge _ _
    else MisjudgedByRange minAge maxAge _ _ ∨ uniQuery ≠ "" ∧ AtBounds minAge maxAge _ _))

/-! ### Ages by the calendar -/

section Ages

variable {minAge maxAge age : Nat} {birthday now : Int}

/-- The completed years are in the range. -/
def InRange (minAge maxAge : Nat) (birthday now : Int) : Prop :=
  minAge ≤ completedYears birthday now ∧ completedYears birthday now ≤ maxAge

theorem inRange_of_le (h : birthday ≤ now) : InRange minAge maxAge birthday now ↔
    addYears minAge birthday ≤ now ∧ now < addYears (maxAge + 1) birthday := by
  rw [InRange, le_completedYears_iff h, ← completedYears_lt_iff h, Int.lt_add_one_iff]

theorem inRange_of_lt (h : now < birthday) : InRange minAge maxAge birthday now ↔
    minAge = 0 ∧ addYears (-1) birthday < now := by
  obtain ⟨hle, hzero⟩ := completedYears_of_lt h
  rw [← hzero, InRange]
  omega

/-- The day `minAge` years ago comes after the day `maxAge` years ago. -/
theorem bounds_lt (h : minAge < maxAge) (now : Int) :
    addYears (-maxAge) now < addYears (-minAge) now := addYears_lt_addYears (by omega) now

/-- **Between the two days everybody is of an age in the range.** -/
theorem inRange_of_bounds (hmax : addYears (-maxAge) now ≤ birthday)
    (hmin : birthday ≤ addYears (-minAge) now) : InRange minAge maxAge birthday now := by
  rw [inRange_of_le (le_trans hmin (addYears_neg_le now))]
  refine ⟨addYears_le_of_le hmin, ?_⟩
  apply lt_addYears
  have hyear := year_mono hmax
  rw [year_addYears] at hyear
  omega

/-- Those of an age in the range who are not between the two days. -/
theorem inRange_and_not_bounds_iff (h : minAge < maxAge) :
    InRange minAge maxAge birthday now ∧
        ¬ (addYears (-maxAge) now ≤ birthday ∧ birthday ≤ addYears (-minAge) now) ↔
      MisjudgedByRange minAge maxAge birthday now := by
  have hbounds := bounds_lt h now
  have hpast : addYears (-minAge) now ≤ now := addYears_neg_le now
  constructor
  · rintro ⟨hin, hnot⟩
    rcases le_or_gt birthday now with hle | hlt
    · obtain ⟨hmin, hmax⟩ := (inRange_of_le hle).mp hin
      rcases lt_or_ge birthday (addYears (-maxAge) now) with hearly | hlate
      · exact Or.inl ⟨hearly, hmax⟩
      · exact Or.inr (Or.inl ⟨not_le.mp fun hle' => hnot ⟨hlate, hle'⟩, hle, hmin⟩)
    · obtain ⟨hzero, hsoon⟩ := (inRange_of_lt hlt).mp hin
      exact Or.inr (Or.inr ⟨hzero, hlt, hsoon⟩)
  · rintro (⟨hearly, hmax⟩ | ⟨hlate, hle, hmin⟩ | ⟨hzero, hlt, hsoon⟩)
    · have hmin : addYears minAge birthday ≤ now := addYears_le_of_le (by omega)
      exact ⟨(inRange_of_le (by omega)).mpr ⟨hmin, hmax⟩, fun hb => not_le.mpr hearly hb.1⟩
    · refine ⟨(inRange_of_le hle).mpr ⟨hmin, ?_⟩, fun hb => not_le.mpr hlate hb.2⟩
      apply lt_addYears
      have hyear := year_mono (le_of_lt hlate)
      rw [year_addYears] at hyear
      omega
    · exact ⟨(inRange_of_lt hlt).mpr ⟨hzero, hsoon⟩, fun hb => by omega⟩

theorem iff_iff_not_or {F A : Prop} : (F ↔ A) ↔ ¬ (F ∧ ¬ A ∨ A ∧ ¬ F) := by tauto

theorem iff_iff_not_of {F A M : Prop} (hin : F → A) (hout : A ∧ ¬ F ↔ M) : (F ↔ A) ↔ ¬ M := by
  rw [← hout]
  tauto

theorem and_not_iff_or {F A E : Prop} (hin : F → A) (hends : E → F) :
    A ∧ ¬ (F ∧ ¬ E) ↔ A ∧ ¬ F ∨ E := by
  tauto

/-- **The bounds of a range agree with the ages** but for the misjudged birthdays. -/
theorem bounds_iff (h : minAge < maxAge) :
    ((addYears (-maxAge) now ≤ birthday ∧ birthday ≤ addYears (-minAge) now) ↔
      InRange minAge maxAge birthday now) ↔ ¬ MisjudgedByRange minAge maxAge birthday now :=
  iff_iff_not_of (fun hb => inRange_of_bounds hb.1 hb.2) (inRange_and_not_bounds_iff h)

theorem strict_bounds_iff (h : minAge < maxAge) :
    ((addYears (-maxAge) now < birthday ∧ birthday < addYears (-minAge) now) ↔
      InRange minAge maxAge birthday now) ↔
      ¬ (MisjudgedByRange minAge maxAge birthday now ∨ AtBounds minAge maxAge birthday now) := by
  have hbounds := bounds_lt h now
  have hstrict : addYears (-maxAge) now < birthday ∧ birthday < addYears (-minAge) now ↔
      (addYears (-maxAge) now ≤ birthday ∧ birthday ≤ addYears (-minAge) now) ∧
        ¬ AtBounds minAge maxAge birthday now := by
    unfold AtBounds
    omega
  have hends : AtBounds minAge maxAge birthday now →
      addYears (-maxAge) now ≤ birthday ∧ birthday ≤ addYears (-minAge) now := by
    unfold AtBounds
    omega
  have hin : addYears (-maxAge) now ≤ birthday ∧ birthday ≤ addYears (-minAge) now →
      InRange minAge maxAge birthday now := fun hb => inRange_of_bounds hb.1 hb.2
  rw [hstrict, ← inRange_and_not_bounds_iff h]
  exact iff_iff_not_of (fun hb => hin hb.1) (and_not_iff_or hin hends)

/-- The year that the query for a single age searches, without its ends. -/
def WithinYear (age : Nat) (birthday now : Int) : Prop :=
  startOfYear (year now - age) < birthday ∧ birthday < startOfLastDay (year now - age)

theorem year_of_within (h : WithinYear age birthday now) : year birthday = year now - age := by
  have hle := startOfYear_le_iff.mp (le_of_lt h.1)
  have hlt := not_le.mpr (lt_trans h.2 (startOfLastDay_lt _))
  rw [startOfYear_le_iff] at hlt
  omega

/-- Those of the year who are not of the age have their birthday still to come. -/
theorem within_and_not_inRange_iff : WithinYear age birthday now ∧
    ¬ InRange age age birthday now ↔
      1 ≤ age ∧ WithinYear age birthday now ∧ now < addYears age birthday := by
  constructor
  · rintro ⟨hwithin, hnot⟩
    have hyear := year_of_within hwithin
    have hnext : now < addYears (age + 1) birthday := lt_addYears (by omega)
    rcases Nat.eq_zero_or_pos age with rfl | hpos
    · exfalso
      apply hnot
      rcases le_or_gt birthday now with hle | hlt
      · exact (inRange_of_le hle).mpr ⟨(addYears_zero birthday).trans_le hle, hnext⟩
      · exact (inRange_of_lt hlt).mpr ⟨rfl, addYears_lt (by omega)⟩
    · refine ⟨hpos, hwithin, ?_⟩
      have hle : birthday ≤ now := le_of_lt (lt_of_year_lt (by omega))
      by_contra hcome
      exact hnot ((inRange_of_le hle).mpr ⟨not_lt.mp hcome, hnext⟩)
  · rintro ⟨hpos, hwithin, hcome⟩
    have hyear := year_of_within hwithin
    have hle : birthday ≤ now := le_of_lt (lt_of_year_lt (by omega))
    exact ⟨hwithin, fun hin => not_le.mpr hcome ((inRange_of_le hle).mp hin).1⟩

/-- Those of the age who are not of the year, or at one of its ends. -/
theorem inRange_and_not_within_iff : InRange age age birthday now ∧
    ¬ WithinYear age birthday now ↔
      (birthday ≤ startOfYear (year now - age) ∧ now < addYears (age + 1) birthday) ∨
      (startOfLastDay (year now - age) ≤ birthday ∧ birthday ≤ now ∧ addYears age birthday ≤ now) ∨
      (age = 0 ∧ startOfLastDay (year now - age) ≤ birthday ∧ now < birthday ∧
        addYears (-1) birthday < now) := by
  have hthisYear : startOfYear (year now) ≤ now := startOfYear_le_iff.mpr le_rfl
  have hstart : startOfYear (year now - age) = addYears (-age) (startOfYear (year now)) :=
    (addYears_startOfYear _ _).symm
  constructor
  · rintro ⟨hin, hnot⟩
    rcases le_or_gt birthday (startOfYear (year now - age)) with hearly | hafter
    · have hle : birthday ≤ now := by
        rw [hstart] at hearly
        exact le_trans (le_trans hearly (addYears_neg_le _)) hthisYear
      exact Or.inl ⟨hearly, ((inRange_of_le hle).mp hin).2⟩
    · have hlast : startOfLastDay (year now - age) ≤ birthday :=
        not_lt.mp fun hbefore => hnot ⟨hafter, hbefore⟩
      rcases le_or_gt birthday now with hle | hlt
      · exact Or.inr (Or.inl ⟨hlast, hle, ((inRange_of_le hle).mp hin).1⟩)
      · obtain ⟨hzero, hsoon⟩ := (inRange_of_lt hlt).mp hin
        exact Or.inr (Or.inr ⟨hzero, hlast, hlt, hsoon⟩)
  · rintro (⟨hearly, hnext⟩ | ⟨hlast, hle, hcome⟩ | ⟨hzero, hlast, hlt, hsoon⟩)
    · have hnot : ¬ WithinYear age birthday now := fun hwithin => not_lt.mpr hearly hwithin.1
      rw [hstart] at hearly
      have hle := le_trans (le_trans hearly (addYears_neg_le _)) hthisYear
      exact ⟨(inRange_of_le hle).mpr ⟨le_trans (addYears_le_of_le hearly) hthisYear, hnext⟩, hnot⟩
    · have hyear := startOfYear_le_iff.mp (le_trans (startOfYear_le_startOfLastDay _) hlast)
      refine ⟨(inRange_of_le hle).mpr ⟨hcome, lt_addYears (by omega)⟩, ?_⟩
      exact fun hwithin => not_lt.mpr hlast hwithin.2
    · exact ⟨(inRange_of_lt hlt).mpr ⟨hzero, hsoon⟩, fun hwithin => not_lt.mpr hlast hwithin.2⟩

/-- **The year of a single age agrees with the age** but for the misjudged birthdays. -/
theorem within_iff : (WithinYear age birthday now ↔ InRange age age birthday now) ↔
    ¬ MisjudgedByYear age birthday now := by
  rw [@iff_iff_not_or (WithinYear age birthday now), within_and_not_inRange_iff,
    inRange_and_not_within_iff, MisjudgedByYear, WithinYear, and_assoc]

end Ages

/-! ### What the query selects -/

section Selected

variable {calendar : Calendar} {now : Int} {uniQuery : String} {minAge maxAge : Nat} {post : Post}

theorem ofAge_iff : OfAge calendar now minAge maxAge post ↔
    InRange minAge maxAge (calendar.localTime post.birthday) (calendar.localTime now) := Iff.rfl

/-! What a clause says of a stored post. -/

@[simp] theorem matches_isLessThan (t : Int) : WhereField.matches
    ⟨"birthday", .isLessThan, .timestamp t⟩ post.encode = true ↔ post.birthday < t :=
  decide_eq_true_iff

@[simp] theorem matches_isLessThanOrEqualTo (t : Int) : WhereField.matches
    ⟨"birthday", .isLessThanOrEqualTo, .timestamp t⟩ post.encode = true ↔ post.birthday ≤ t :=
  decide_eq_true_iff

@[simp] theorem matches_isGreaterThan (t : Int) : WhereField.matches
    ⟨"birthday", .isGreaterThan, .timestamp t⟩ post.encode = true ↔ t < post.birthday :=
  decide_eq_true_iff

@[simp] theorem matches_isGreaterThanOrEqualTo (t : Int) : WhereField.matches
    ⟨"birthday", .isGreaterThanOrEqualTo, .timestamp t⟩ post.encode = true ↔
      t ≤ post.birthday :=
  decide_eq_true_iff

@[simp] theorem matches_isEqualTo (university : String) : WhereField.matches
    ⟨"university", .isEqualTo, .string university⟩ post.encode = true ↔
      post.university = university := by
  show decide (Value.string post.university = .string university) = true ↔ _
  rw [decide_eq_true_iff, Value.string.injEq]

theorem selected_year_iff : Selected calendar now uniQuery minAge minAge post ↔
    WithinYear minAge (calendar.localTime post.birthday) (calendar.localTime now) ∧
      OfUniversity uniQuery post := by
  have hyear : year (calendar.localTime (calendar.dateByAddingYears (-1 * minAge) now)) =
      year (calendar.localTime now) - minAge := by
    rw [Calendar.dateByAddingYears, Calendar.localTime_date, year_addYears]
    omega
  unfold Selected whereFields OfUniversity WithinYear
  simp only [Calendar.firstDay, Calendar.lastDay, hyear]
  by_cases huni : uniQuery = ""
  · simp [huni, Calendar.lt_date_iff, Calendar.date_lt_iff, and_comm]
  · simp [huni, Calendar.lt_date_iff, Calendar.date_lt_iff, and_comm, and_left_comm]

theorem selected_range_iff (h : minAge ≠ maxAge) :
    Selected calendar now "" minAge maxAge post ↔
      addYears (-maxAge) (calendar.localTime now) ≤ calendar.localTime post.birthday ∧
        calendar.localTime post.birthday ≤ addYears (-minAge) (calendar.localTime now) := by
  unfold Selected whereFields
  simp [h, Calendar.dateByAddingYears, Calendar.le_date_iff, Calendar.date_le_iff, and_comm]

theorem selected_range_university_iff (h : minAge ≠ maxAge) (huni : uniQuery ≠ "") :
    Selected calendar now uniQuery minAge maxAge post ↔
      (addYears (-maxAge) (calendar.localTime now) < calendar.localTime post.birthday ∧
        calendar.localTime post.birthday < addYears (-minAge) (calendar.localTime now)) ∧
      post.university = uniQuery := by
  unfold Selected whereFields
  simp [h, huni, Calendar.dateByAddingYears, Calendar.lt_date_iff, Calendar.date_lt_iff, and_comm,
    and_left_comm]

/-- **One post**: the query and the age shown agree but for the misjudged birthdays of a
matching university. -/
theorem selected_post_iff (h : minAge ≤ maxAge) :
    (Selected calendar now uniQuery minAge maxAge post ↔
      OfAge calendar now minAge maxAge post ∧ OfUniversity uniQuery post) ↔
      (OfUniversity uniQuery post →
        ¬ Misjudged calendar now uniQuery minAge maxAge post.birthday) := by
  unfold Misjudged
  rcases Nat.eq_or_lt_of_le h with rfl | hlt
  · rw [if_pos rfl, selected_year_iff, ofAge_iff, ← within_iff]
    exact and_congr_left_iff
  · have hne : minAge ≠ maxAge := Nat.ne_of_lt hlt
    rw [if_neg hne]
    by_cases huni : uniQuery = ""
    · subst huni
      have hall : OfUniversity "" post := fun h => absurd rfl h
      simp [selected_range_iff hne, ofAge_iff, bounds_iff hlt, hall]
    · have huniversity : OfUniversity uniQuery post ↔ post.university = uniQuery :=
        ⟨fun h => h huni, fun h _ => h⟩
      rw [selected_range_university_iff hne huni, ofAge_iff, huniversity, and_congr_left_iff,
        strict_bounds_iff hlt]
      simp [huni]

/-- **The query selects the posts of the ages shown exactly when no post of a matching
university has a birthday that it misjudges.** -/
theorem selected_iff (h : minAge ≤ maxAge) (posts : Set Post) :
    {post ∈ posts | Selected calendar now uniQuery minAge maxAge post} =
        {post ∈ posts | OfAge calendar now minAge maxAge post ∧ OfUniversity uniQuery post} ↔
      ∀ post ∈ posts, OfUniversity uniQuery post →
        ¬ Misjudged calendar now uniQuery minAge maxAge post.birthday := by
  rw [Set.ext_iff]
  apply forall_congr'
  intro post
  rw [Set.mem_sep_iff, Set.mem_sep_iff, and_congr_right_iff]
  exact imp_congr_right fun _ => selected_post_iff h

end Selected

/-- The post of someone born at a time. -/
def postOf (birthday : Int) : Post where
  id := some "p"
  posterId := "bob"
  name := "Carl"
  university := "Duke University"
  location := "Durham"
  birthday := birthday
  text := "hi"
  likes := []
  tags := []
  taggedUserIds := []
  pictures := ["u"]
  childCommentIds := []
  creationDate := 0

/-- Noon of 20 April 2022. -/
def april2022 : Int := 1650456000000

/-- Someone born on 5 March 1997, for the ages 18 to 30 in April 2022. -/
theorem selected_iff_example :
    {post ∈ ({postOf 857520000000} : Set Post) | Selected ⟨0⟩ april2022 "" 18 30 post} =
      {post ∈ ({postOf 857520000000} : Set Post) |
        OfAge ⟨0⟩ april2022 18 30 post ∧ OfUniversity "" post} := by
  refine (selected_iff (by decide) _).mpr ?_
  rintro post rfl -
  decide +kernel

/-- Someone born on 1 August 1991 is 30 in April 2022, and the query for the ages 18 to
30 leaves them out. -/
theorem selected_misses : ¬ ∀ (calendar : Calendar) (now : Int) (uniQuery : String)
    (minAge maxAge : Nat) (posts : Set Post), minAge ≤ maxAge →
      {post ∈ posts | Selected calendar now uniQuery minAge maxAge post} =
        {post ∈ posts | OfAge calendar now minAge maxAge post ∧ OfUniversity uniQuery post} := by
  intro h
  have hset := h ⟨0⟩ april2022 "" 18 30 {postOf 681004800000} (by decide)
  have hage : OfAge ⟨0⟩ april2022 18 30 (postOf 681004800000) := by decide +kernel
  have hselected := (Set.ext_iff.mp hset (postOf 681004800000)).mpr ⟨rfl, hage, nofun⟩
  exact absurd hselected.2 (by decide +kernel)

end Subtle.Feed
