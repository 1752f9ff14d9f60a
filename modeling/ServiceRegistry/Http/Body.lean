import ServiceRegistry.Http.Message
import ServiceRegistry.Json.Decode
import ServiceRegistry.Text.Pieces

/-!
# Bodies

A body is read as JSON only if its content type says that it is.
-/

namespace ServiceRegistry.Http

set_option autoImplicit false

def isTokenChar (c : Char) : Bool := c.isAlphanum || "!#$%&'*+-.^_\x60|~".toList.contains c

def isToken (cs : List Char) : Bool := !cs.isEmpty && cs.all isTokenChar

def isQuotable (c : Char) : Bool := c == '\t' || (' ' ≤ c && c ≤ '~' && c ≠ '"' && c ≠ '\\')

mutual

def areParameters : List Char → Bool
  | [] => true
  | ' ' :: rest => areParameters rest
  | c :: rest => isTokenChar c && isName rest

def isName : List Char → Bool
  | '=' :: '"' :: rest => isQuoted true rest
  | '=' :: c :: rest => isTokenChar c && isValue rest
  | '=' :: [] => true
  | c :: rest => isTokenChar c && isName rest
  | [] => false

def isValue : List Char → Bool
  | [] => true
  | ';' :: rest => areParameters rest
  | c :: rest => isTokenChar c && isValue rest

def isQuoted (start : Bool) : List Char → Bool
  | [] => false
  | '"' :: rest => !start && isClosed rest
  | c :: rest => isQuotable c && isQuoted false rest

def isClosed : List Char → Bool
  | [] => true
  | ';' :: rest => areParameters rest
  | ' ' :: rest => isClosed rest
  | _ => false

end

/-- The part of a subtype in front of its last plus sign, and the part behind it. -/
def splitSuffix (cs : List Char) : List Char × Option (List Char) :=
  let behind := cs.reverse.takeWhile (· ≠ '+')
  if behind.length < cs.length ∧ behind.length + 1 < cs.length then
    (cs.take (cs.length - behind.length - 1), some behind.reverse)
  else (cs, none)

/-- Whether a content type is JSON, by its name or by its suffix. -/
def isJsonType (contentType : String) : Bool :=
  let cs := (Text.lower contentType).toList
  let rest := cs.dropWhile (· ≠ '/')
  let subtype := Text.upTo ';' (rest.drop 1)
  let parameters := ((rest.drop 1).dropWhile (· ≠ ';')).drop 1
  let (name, suffix) := splitSuffix subtype
  Text.upTo '/' cs == "application".toList && !rest.isEmpty && isToken subtype &&
    areParameters parameters && (name == "json".toList || suffix == some "json".toList)

def Request.json {α : Type} (r : Request) (decode : Json.Decoder α) : Except Rejection α :=
  if (r.headers.get? "content-type").any isJsonType then
    match Json.decodeDocument decode (Json.ofText r.body) with
    | .ok a => .ok a
    | .error .malformed => .error .jsonText
    | .error .unfit => .error .jsonValue
  else .error .contentType

end ServiceRegistry.Http
