/-!
# Request methods

The methods of an endpoint, in the order in which a description's endpoints are visited.
-/

namespace ApiContract

/-- A request method. -/
inductive Method where
  | get
  | put
  | post
  | delete
  | options
  | head
  | patch
  | trace
deriving DecidableEq, Repr, Inhabited

namespace Method

/-- Every method, in visiting order. -/
def all : List Method := [.get, .put, .post, .delete, .options, .head, .patch, .trace]

/-- The key of a method in a path item. -/
def key : Method → String
  | .get => "get"
  | .put => "put"
  | .post => "post"
  | .delete => "delete"
  | .options => "options"
  | .head => "head"
  | .patch => "patch"
  | .trace => "trace"

/-- The name of a method in capitals. -/
def name (m : Method) : String :=
  String.ofList (m.key.toList.map Char.toUpper)

/-- The place of a method in the visiting order. -/
def rank (m : Method) : Nat :=
  all.idxOf m

/-- The method of a key. -/
def ofKey? (key : String) : Option Method :=
  all.find? fun m => m.key = key

end Method

end ApiContract
