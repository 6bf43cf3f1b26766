import Subtle.Firestore.Value

/-!
# The forms for signing in and signing up

`AuthVM` holds the fields of the registration form.  An error is shown once the
form has been submitted, and a form without errors is valid.

* `User.decode_encode`: a stored profile is read back with the id of its document.
-/

namespace Subtle.Auth

open Subtle.Firestore

structure College where
  name : String
  domain : String
  deriving DecidableEq

def College.dummyCollege : College := ⟨"loading universities", "loading.edu"⟩

/-- The `id` is that of the document and no field of it. -/
structure User where
  id : Option String
  firstName : String
  lastName : String
  email : String
  university : String
  deriving DecidableEq

namespace User

def encode (user : User) : Document := fun k =>
  List.lookup k
    [("firstName", .string user.firstName), ("lastName", .string user.lastName),
      ("email", .string user.email), ("university", .string user.university)]

def decode (id : String) (document : Document) : Option User := do
  -- `@DocumentID` cannot be assigned over a field of that name
  guard (document "id" = none)
  let firstName ← (document "firstName").bind Value.asString
  let lastName ← (document "lastName").bind Value.asString
  let email ← (document "email").bind Value.asString
  let university ← (document "university").bind Value.asString
  return { id := some id, firstName, lastName, email, university }

theorem decode_encode (id : String) (user : User) :
    decode id user.encode = some { user with id := some id } := rfl

theorem id_of_decode {id : String} {document : Document} {user : User}
    (h : decode id document = some user) : user.id = some id := by
  unfold decode at h
  iterate 5 obtain ⟨_, -, h⟩ := Option.bind_eq_some_iff.mp h
  exact (Option.some.inj h) ▸ rfl

end User

structure AuthVM where
  email : String
  firstName : String
  lastName : String
  university : College
  password : String
  loggedIn : Bool
  universityList : List College
  firstSubmitAttempted : Bool
  deriving DecidableEq

namespace AuthVM

def init : AuthVM where
  email := ""
  firstName := ""
  lastName := ""
  university := College.dummyCollege
  password := ""
  loggedIn := false
  universityList := [College.dummyCollege]
  firstSubmitAttempted := false

/-- `email.components(separatedBy: "@")` -/
def emailComponents (email : String) : List String := (email.toList.splitOn '@').map String.ofList

def emailIsValid (vm : AuthVM) : Bool :=
  vm.email.toList.contains '@' && (emailComponents vm.email)[1]? == some vm.university.domain

def firstNameError (vm : AuthVM) : Bool := vm.firstSubmitAttempted && vm.firstName == ""

def lastNameError (vm : AuthVM) : Bool := vm.firstSubmitAttempted && vm.lastName == ""

def emailEmptyError (vm : AuthVM) : Bool := vm.firstSubmitAttempted && vm.email == ""

def emailInvalidError (vm : AuthVM) : Bool := vm.firstSubmitAttempted && !vm.emailIsValid

def universityError (vm : AuthVM) : Bool :=
  vm.firstSubmitAttempted && vm.university == College.dummyCollege

/-- The characters are counted as Unicode scalars, not as grapheme clusters. -/
def passwordError (vm : AuthVM) : Bool := vm.firstSubmitAttempted && vm.password.length < 6

def formIsValid (vm : AuthVM) : Bool :=
  !(vm.firstNameError || vm.lastNameError || vm.emailEmptyError || vm.emailInvalidError ||
    vm.universityError || vm.passwordError)

end AuthVM

end Subtle.Auth
