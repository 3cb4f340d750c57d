import ApiContract.Json.Printer
import ApiContract.Plan.Basic
import ApiContract.Text.Class

/-!
# Scaffolds

The module that a unit's author starts from: a handler class with a method for each operation of the
unit, whose signatures and comments come from the plans and whose bodies are left to write.
-/

namespace ApiContract.Scaffold

/-! ## Texts -/

/-- The name of a unit's handler class. -/
def className (unit : String) : String :=
  Text.pascal unit ++ "ApiHandler"

/-- The name of the file that holds a unit's handlers. -/
def fileName (unit : String) : String :=
  unit ++ "_handler.py"

/-- A character of a string literal that is kept out of markup too. -/
def safeChar : Char → List Char
  | '<' => "\\u003c".toList
  | '>' => "\\u003e".toList
  | '&' => "\\u0026".toList
  | '\'' => "\\u0027".toList
  | c => [c]

/-- A text as a string literal. -/
def literal (text : String) : String :=
  String.ofList ((Json.stringText true text).toList.flatMap safeChar)

/-- Doubles every backslash. -/
def escapeBackslash : Char → List Char
  | '\\' => ['\\', '\\']
  | c => [c]

/-- Puts a backslash in front of each quote of every group of three. -/
def escapeQuotes : List Char → List Char
  | '"' :: '"' :: '"' :: rest => '\\' :: '"' :: '\\' :: '"' :: '\\' :: '"' :: escapeQuotes rest
  | c :: rest => c :: escapeQuotes rest
  | [] => []

/-- A text that can stand inside a comment between three quotes. -/
def comment (text : String) : String :=
  String.ofList (Text.trimBy Text.isBlank (escapeQuotes (text.toList.flatMap escapeBackslash)))

/-- Whether a character ends a line. -/
def endsLine (c : Char) : Bool :=
  Text.inRanges [(10, 13), (28, 30), (133, 133), (8232, 8233)] c.toNat

/-- The lines of a text; a carriage return with a line feed ends one line. -/
def linesOf : List Char → List (List Char)
  | [] => []
  | '\r' :: '\n' :: rest => [] :: linesOf rest
  | c :: rest =>
    if endsLine c then [] :: linesOf rest
    else match linesOf rest with
      | line :: lines => (c :: line) :: lines
      | [] => [[c]]

/-- Indents every line but the first; empty lines stay empty. -/
def indented (by_ : Nat) (text : String) : String :=
  match linesOf text.toList with
  | [] => ""
  | first :: rest =>
    "\n".intercalate (String.ofList first ::
      rest.map fun line => if line.isEmpty then "" else
        String.ofList (List.replicate by_ ' ' ++ line))

/-- The words of a text with one space between them. -/
def joinWords (text : String) : String :=
  " ".intercalate (((Reference.splitBy Text.isBlank text.toList).filter (!·.isEmpty)).map
    String.ofList)

/-! ## Types of arguments -/

/-- The spelling of the type of an argument that may be absent. -/
def optional (required : Bool) (spelling : String) : String :=
  if required || "Optional[".toList.isPrefixOf spelling.toList || spelling = "Any" then spelling
  else "Optional[" ++ spelling ++ "]"

/-- The spelling of what a body holds. -/
def bodySpelling (b : BodyPlan) : String :=
  match b.format with
  | .jsonValue => "Any"
  | .jsonText | .text => "str"
  | .jsonOctets | .octets => "bytes"
  | .jsonTyped => (b.type.getD .any).spelling

/-- The types that the arguments of an operation mention. -/
def argumentTypes (p : OperationPlan) : List TypeExpr :=
  p.parameters.map (·.type) ++ (p.requestBody.bind fun b => b.body.type).toList

/-- The arguments of a handler's method that come from the request, with the spellings of their types. -/
def arguments (p : OperationPlan) : List (String × String) :=
  p.parameters.map (fun a => (a.argument, optional a.required a.type.spelling)) ++
    (p.requestBody.map fun b => ("request_body", optional b.required (bodySpelling b.body))).toList

/-! ## Lines -/

/-- The line of a parameter in the comment of a method. -/
def parameterLine (a : ParameterPlan) : String :=
  let description := joinWords (a.description.getD "")
  "            " ++ a.argument ++ ": " ++ a.place.name ++ " parameter `" ++ a.name ++ "`." ++
    if description.isEmpty then "" else " " ++ comment description

/-- The text, or the other one where there is none. -/
def orElse (text : Option String) (other : String) : String :=
  match text with
  | some t => if t.isEmpty then other else t
  | none => other

/-- The lines of a method's comment. -/
def commentLines (p : OperationPlan) : List String :=
  let endpoint := Operation.endpointText p.method p.path
  let description := orElse p.description ""
  ["        \"\"\"" ++ comment (orElse p.summary endpoint), ""] ++
    (if description.isEmpty then [] else ["        " ++ indented 8 (comment description), ""]) ++
    ["        Endpoint: `" ++ endpoint ++ "`", "        Operation ID: `" ++ p.id ++ "`"] ++
    (if p.parameters.isEmpty then []
      else ["", "        Args:"] ++ p.parameters.map parameterLine) ++
    ["        \"\"\""]

/-- The lines of a method. -/
def methodLines (p : OperationPlan) : List String :=
  ["", "    async def " ++ p.handler ++ "(", "        self,", "        *,"] ++
    (arguments p).map (fun (name, spelling) => "        " ++ name ++ ": " ++ spelling ++ ",") ++
    ["        headers: httpx.Headers,", "        request_context: ProxyRequestContext,",
      "        context: Any,"] ++
    (if p.authenticated then ["        auth_ok: Any,"] else []) ++
    ["    ) -> " ++ p.responseType ++ ":"] ++ commentLines p ++ ["        raise NotImplementedError"]

/-- The distinct texts of a list, sorted. -/
def sorted (texts : List String) : List String :=
  texts.eraseDups.mergeSort fun a b => a ≤ b

/-- The lines of a scaffold. -/
def lines (unit descriptionPath : String) (plans : List OperationPlan) : List String :=
  let types := plans.flatMap argumentTypes
  let primitives := types.flatMap TypeExpr.primitives
  let dates := [Primitive.date, .dateTime].filter primitives.contains
  ["\"\"\"`" ++ unit ++ "` API handler.", "",
    "Generated by specdispatch from " ++ descriptionPath ++ ". Fill in each operation.",
    "This file is written once; `specdispatch generate --force` overwrites it.", "\"\"\"", "",
    "from __future__ import annotations", ""] ++
  (if dates.isEmpty then []
    else ["from datetime import " ++ ", ".intercalate (dates.map Primitive.code)]) ++
  ["from typing import Any, Optional", "", "import httpx", "",
    "from specdispatch import ApiUnit, compile_api",
    "from specdispatch.codegen import operation_filter"] ++
  (if primitives.contains .empty then ["from specdispatch.model import EmptyModel"] else []) ++
  ["from specdispatch.runtime import HandlerError, HttpResponse, ProxyRequestContext", "", "",
    "api = compile_api(", "    " ++ literal descriptionPath ++ ",", "    ApiUnit(",
    "        " ++ literal unit ++ ",", "        op_filter=operation_filter(",
    "            operation_ids=["] ++
  plans.map (fun p => "                " ++ literal p.id ++ ",") ++
  ["            ]", "        ),", "    ),", ")", ""] ++
  (sorted (types.filterMap TypeExpr.name?)).map (fun n => n ++ " = api.models." ++ n) ++
  plans.map (fun p => p.responseType ++ " = api." ++ p.responseType) ++
  ["", "", "class " ++ className unit ++ "(api.Api):",
    "    async def respond_to_handler_error(self, err: HandlerError) -> HttpResponse:",
    "        return HttpResponse(status_code=500)"] ++
  plans.flatMap methodLines

/-- The text of a unit's scaffold. -/
def text (unit descriptionPath : String) (plans : List OperationPlan) : String :=
  String.join ((lines unit descriptionPath plans).map (· ++ "\n"))

/-- Whether the type of an operation's body is known where its format needs one. -/
def isSpelled (p : OperationPlan) : Bool :=
  p.requestBody.all fun b => b.body.format != .jsonTyped || b.body.type.isSome

/-- The text of a unit's scaffold, if every argument of its operations has a type. -/
def text? (unit descriptionPath : String) (plans : List OperationPlan) : Option String :=
  if plans.all isSpelled then some (text unit descriptionPath plans) else none

end ApiContract.Scaffold
