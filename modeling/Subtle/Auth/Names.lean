import Subtle.Auth.Form
import Subtle.Lib.Machine
import Mathlib.Logic.Function.Basic

/-!
# Looking up a name

`getNameFromId` reads the profile of a user and hands on the full name in it.  The profile
is the one of some moment while the lookup is outstanding; anyone may rewrite or delete it
before and after.

* `fullName_setData`: the profile that registration stores has a name.
-/

namespace Subtle.Auth

open Subtle.Firestore

/-- `"\(user.firstName) \(user.lastName)"` -/
def User.fullName (user : User) : String := user.firstName ++ " " ++ user.lastName

/-- The name in a profile, where it is there and decodes. -/
def nameFromDocument (id : String) (document : Option Document) : Option String :=
  (document.bind (User.decode id)).map User.fullName

/-- A lookup: the document is read, and the response with it waits to be handled. -/
inductive Lookup where
  | getDocument (id : String)
  | response (id : String) (document : Option Document)

/-- Whose name is looked up. -/
def Lookup.id : Lookup → String
  | getDocument id | response id _ => id

theorem fullName_setData (id : String) (user : User) :
    nameFromDocument id (some user.encode) = some user.fullName := rfl

end Subtle.Auth
