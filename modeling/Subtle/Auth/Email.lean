import Subtle.Auth.Form
import Subtle.Lib.Separated
import Mathlib.Data.String.Basic

/-!
# The e-mail address of a university

`emailIsValid` compares the second component of the address with the domain of the
university, and nothing else.

* `IsAddress`: an address of a domain.
* `emailIsValid_iff`: **an e-mail is accepted exactly when it is such an address, or one of
  the two kinds of `Misread` texts**.
* `emailIsValid_iff_isAddress_iff`: the check is right about all other texts.
-/

namespace Subtle.Auth

open Subtle.Lib

/-- `localPart@domain` with a local part and no other `@`. -/
def IsAddress (email domain : String) : Prop :=
  email.toList.count '@' = 1 ∧ ∃ localPart, localPart ≠ "" ∧ email = localPart ++ "@" ++ domain

/-- The domain after the first `@`, but nothing before it or another `@` after it. -/
def Misread (email domain : String) : Prop :=
  '@' ∉ domain.toList ∧ (email = "@" ++ domain ∨
    ∃ localPart rest, '@' ∉ localPart.toList ∧ email = localPart ++ "@" ++ domain ++ "@" ++ rest)

theorem eq_at_iff {email domain localPart : String} :
    email = localPart ++ "@" ++ domain ↔
      email.toList = localPart.toList ++ '@' :: domain.toList := by
  rw [← String.toList_inj, String.toList_append, String.toList_append, List.append_assoc]
  exact Iff.rfl

/-- The second component of an e-mail with a separator. -/
theorem emailIsValid_of_eq {vm : AuthVM} {front back : List Char} (hfront : '@' ∉ front)
    (hemail : vm.email.toList = front ++ '@' :: back) :
    vm.emailIsValid = true ↔ back.takeWhile (· != '@') = vm.university.domain.toList := by
  have hcontains : vm.email.toList.contains '@' = true := by
    rw [hemail, List.contains_iff_mem]
    exact List.mem_append_cons_self
  have hcomponent : (AuthVM.emailComponents vm.email)[1]? =
      some (String.ofList (back.takeWhile (· != '@'))) := by
    rw [AuthVM.emailComponents, List.getElem?_map, hemail, getElem?_one_splitOn hfront]
    rfl
  rw [AuthVM.emailIsValid, hcontains, Bool.true_and, hcomponent, beq_iff_eq, Option.some_inj,
    String.ofList_eq]

theorem emailIsValid_of_notMem {vm : AuthVM} (h : '@' ∉ vm.email.toList) :
    vm.emailIsValid = false := by
  have hcontains : vm.email.toList.contains '@' = false := by
    rwa [← Bool.not_eq_true, List.contains_iff_mem]
  rw [AuthVM.emailIsValid, hcontains, Bool.false_and]

section

variable {email domain : String}

theorem isAddress_iff : IsAddress email domain ↔ '@' ∉ domain.toList ∧
    ∃ front ≠ [], '@' ∉ front ∧ email.toList = front ++ '@' :: domain.toList := by
  constructor
  · rintro ⟨hcount, localPart, hlocal, hemail⟩
    have heq := eq_at_iff.mp hemail
    rw [heq, List.count_append, List.count_cons_self] at hcount
    refine ⟨List.count_eq_zero.mp (by omega), localPart.toList, ?_,
      List.count_eq_zero.mp (by omega), heq⟩
    rwa [Ne, String.toList_eq_nil_iff]
  · rintro ⟨hdomain, front, hne, hfront, heq⟩
    refine ⟨?_, String.ofList front, ?_, eq_at_iff.mpr ?_⟩
    · rw [heq, List.count_append, List.count_cons_self, List.count_eq_zero.mpr hfront,
        List.count_eq_zero.mpr hdomain]
    · rwa [Ne, ← String.toList_eq_nil_iff, String.toList_ofList]
    · rwa [String.toList_ofList]

theorem misread_iff : Misread email domain ↔ '@' ∉ domain.toList ∧
    (email.toList = '@' :: domain.toList ∨ ∃ front back, '@' ∉ front ∧
      email.toList = front ++ '@' :: (domain.toList ++ '@' :: back)) := by
  have hat : ∀ localPart rest : String, email = localPart ++ "@" ++ domain ++ "@" ++ rest ↔
      email.toList = localPart.toList ++ '@' :: (domain.toList ++ '@' :: rest.toList) := by
    intro localPart rest
    have heq : localPart ++ "@" ++ domain ++ "@" ++ rest =
        localPart ++ "@" ++ (domain ++ "@" ++ rest) := by simp only [String.append_assoc]
    rw [heq, eq_at_iff, String.toList_append, String.toList_append, List.append_assoc]
    exact Iff.rfl
  have hnone : email = "@" ++ domain ↔ email.toList = '@' :: domain.toList := by
    rw [← String.toList_inj, String.toList_append]
    exact Iff.rfl
  rw [Misread, hnone]
  refine and_congr_right fun _ => or_congr_right ?_
  constructor
  · rintro ⟨localPart, rest, hlocal, hemail⟩
    exact ⟨localPart.toList, rest.toList, hlocal, (hat _ _).mp hemail⟩
  · rintro ⟨front, back, hfront, heq⟩
    refine ⟨String.ofList front, String.ofList back, ?_, (hat _ _).mpr ?_⟩
    · rwa [String.toList_ofList]
    · rwa [String.toList_ofList, String.toList_ofList]

/-- **No text is both an address and misread.** -/
theorem IsAddress.not_misread (h : IsAddress email domain) : ¬ Misread email domain := by
  obtain ⟨hdomain, front, hne, hfront, heq⟩ := isAddress_iff.mp h
  intro hmis
  rcases (misread_iff.mp hmis).2 with hnone | ⟨front', back, -, hmore⟩
  · have hlen := congrArg List.length (heq.symm.trans hnone)
    rw [List.length_append] at hlen
    exact hne (List.length_eq_zero_iff.mp (by omega))
  · have hcount := h.1
    simp only [hmore, List.count_append, List.count_cons_self] at hcount
    omega

end

/-- **The e-mails that the form accepts.** -/
theorem emailIsValid_iff (vm : AuthVM) : vm.emailIsValid = true ↔
    IsAddress vm.email vm.university.domain ∨ Misread vm.email vm.university.domain := by
  rw [isAddress_iff, misread_iff, ← and_or_left]
  rcases eq_append_cons_or '@' vm.email.toList with h | ⟨front, back, hfront, hemail⟩
  · rw [emailIsValid_of_notMem h]
    refine iff_of_false Bool.false_ne_true ?_
    rintro ⟨-, ⟨front, -, -, heq⟩ | heq | ⟨front, back, -, heq⟩⟩ <;> exact h (by simp [heq])
  rw [emailIsValid_of_eq hfront hemail, takeWhile_eq_iff]
  refine and_congr_right fun hdomain => ?_
  constructor
  · rintro (rfl | ⟨rest, rfl⟩)
    · cases front with
      | nil => exact Or.inr (Or.inl hemail)
      | cons c front => exact Or.inl ⟨c :: front, List.cons_ne_nil c front, hfront, hemail⟩
    · exact Or.inr (Or.inr ⟨front, rest, hfront, hemail⟩)
  · rintro (⟨front', -, hfront', heq⟩ | heq | ⟨front', rest, hfront', heq⟩)
    · exact Or.inl (append_cons_inj hfront hfront' (hemail.symm.trans heq)).2
    · exact Or.inl (append_cons_inj hfront List.not_mem_nil (hemail.symm.trans heq)).2
    · exact Or.inr ⟨rest, (append_cons_inj hfront hfront' (hemail.symm.trans heq)).2⟩

/-- **The check agrees with the grammar of addresses exactly on the texts that it does not
misread.** -/
theorem emailIsValid_iff_isAddress_iff (vm : AuthVM) :
    (vm.emailIsValid = true ↔ IsAddress vm.email vm.university.domain) ↔
      ¬ Misread vm.email vm.university.domain := by
  rw [emailIsValid_iff]
  constructor
  · exact fun h hmis => (h.mp (Or.inr hmis)).not_misread hmis
  · exact fun h => or_iff_left h

/-- An e-mail without a local part is accepted, and one with a second `@`. -/
theorem emailIsValid_without_grammar : ¬ ∀ vm : AuthVM, vm.emailIsValid = true ↔
    vm.email.toList.count '@' = 1 ∧
      ∃ localPart, localPart ≠ "" ∧ vm.email = localPart ++ "@" ++ vm.university.domain := by
  intro h
  have hcount := ((h { AuthVM.init with
    email := "ann@duke.edu@gmail.com", university := ⟨"Duke University", "duke.edu"⟩ }).mp
      (by decide +kernel)).1
  exact absurd hcount (by decide +kernel)

example : { AuthVM.init with
    email := "@duke.edu", university := ⟨"Duke University", "duke.edu"⟩ }.emailIsValid = true := by
  decide +kernel

end Subtle.Auth
