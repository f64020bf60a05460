/-
Fingerprints of results.

A `Sample` is a result that is compared from run to run.  `Sample.encode` writes it
as bytes: plain values as their texts, texts after a mark, lists and tables after
their lengths.  Its fingerprint is the digest of these bytes.

Design notes: reals are rounded to six digits first, so that results which differ in
their last digits have one fingerprint.  Lists are written as far as `listLimit`,
and nesting as far as `depthLimit`.
-/
import QuadLang.Fingerprint.Digest
import QuadLang.Number.Written
import QuadLang.Text.Lines

namespace QuadLang.Fingerprint

inductive Sample where
  | none
  | truth (b : Bool)
  | int (i : Int)
  | real (x : Float)
  | complex (re im : Float)
  | text (s : String)
  /-- Bytes, and the kind of value that holds them. -/
  | bytes (kind : String) (bs : Bytes)
  /-- A list or tuple or set, and which of them. -/
  | list (kind : String) (xs : List Sample)
  | table (entries : List (Sample × Sample))
  /-- A record of a named kind with named fields. -/
  | record (kind : String) (fields : List (String × Sample))
  | date (year month day : Int)
  | duration (days seconds : Int)
  | decimal (s : String)
  | fraction (num den : Int)
  | path (s : String)
  | uuid (digits : String)
  /-- A value of which only the kind is known, with the place of the kind. -/
  | other (place kind : String)
deriving Inhabited

namespace Sample

def kind : Sample → String
  | .none => "NoneType"
  | .truth _ => "bool"
  | .int _ => "int"
  | .real _ => "float"
  | .complex .. => "complex"
  | .text _ => "str"
  | .bytes kind _ | .list kind _ => kind
  | .table _ => "dict"
  | .date .. => "date"
  | .duration .. => "timedelta"
  | .decimal _ => "Decimal"
  | .fraction .. => "Fraction"
  | .path _ => "PurePosixPath"
  | .uuid _ => "UUID"
  | .record kind _ | .other _ kind => kind

/-- How many digits of a real count. -/
def digitLimit : Int := 6

/-- The most members of a list that are written. -/
def listLimit : Nat := 2000

/-- The deepest nesting that is written. -/
def depthLimit : Nat := 8

/-- A real as it is written: rounded, and without the sign of zero. -/
def realText (x : Float) : String :=
  match Number.decode x with
  | .finite _ 0 _ => Number.writeFloat 0
  | .finite _ m e =>
    let (num, den) := Number.fraction m e
    Number.writeFloat (Number.roundPlaces x (digitLimit - Number.pointOf num den))
  | _ => Number.writeFloat x

/-- The parts of a duration that are not zero, with seconds below a day. -/
def durationText (days seconds : Int) : String :=
  let d := days + seconds.fdiv 86400
  let s := seconds.fmod 86400
  let parts := (if d == 0 then [] else ["days=" ++ toString d]) ++
    (if s == 0 then [] else ["seconds=" ++ toString s])
  "datetime.timedelta(" ++ (if parts.isEmpty then "0" else Text.join ", " parts) ++ ")"

/-- A fraction in lowest terms, with a positive denominator. -/
def fractionText (num den : Int) : String :=
  let g := (Int.gcd num den : Int) * (if den < 0 then -1 else 1)
  "Fraction(" ++ toString (num / g) ++ ", " ++ toString (den / g) ++ ")"

/-- A path without empty parts and parts that stay in place. -/
def pathText (s : String) : String :=
  let parts := (Text.splitBy '/' s).filter fun p => p != "" && p != "."
  let root := if s.startsWith "/" then "/" else ""
  let path := root ++ Text.join "/" parts
  "PurePosixPath(" ++ Text.quote (if path == "" then "." else path) ++ ")"

/-- The digits of an identifier in five groups. -/
def uuidText (digits : String) : String :=
  let cs := (digits.toList.filter (· != '-')).map Char.toLower
  let part := fun (start n : Nat) => String.ofList ((cs.drop start).take n)
  "UUID('" ++ Text.join "-" [part 0 8, part 8 4, part 12 4, part 16 4, part 20 12] ++ "')"

def utf8 (s : String) : Bytes := s.toUTF8.toList

def header (mark : String) (n : Nat) : Bytes := utf8 (mark ++ toString n)

/-- Write a table whose keys and values are written.  The digests of the keys give
the order, so that it does not depend on how the table was made. -/
def writeTable (pairs : List (Bytes × Bytes)) : Bytes :=
  header "D" pairs.length ++
    (pairs.mergeSort fun a b => digestText a.1 ≤ digestText b.1).flatMap fun (k, v) => k ++ v

/-- Write a result that is nested at most so deep.  A record is written as the table
of its fields. -/
def encode : Nat → Sample → Bytes
  | 0, _ => utf8 "..."
  | depth + 1, s =>
    match s with
    | .none => utf8 "None"
    | .truth b => utf8 (if b then "True" else "False")
    | .int i => utf8 (toString i)
    | .real x => utf8 (realText x)
    | .complex re im => utf8 ("c" ++ realText re ++ realText im)
    | .text s => utf8 ("s" ++ s)
    | .bytes _ bs => utf8 "s" ++ bs
    | .list kind xs =>
      let members := (xs.take listLimit).map (encode depth)
      if kind == "set" || kind == "frozenset" then
        header "S" xs.length ++
          (members.mergeSort fun a b => digestText a ≤ digestText b).flatten
      else header "L" xs.length ++ members.flatten
    | .table entries =>
      writeTable (entries.map fun (k, v) => (encode depth k, encode depth v))
    | .record _ fields =>
      writeTable (fields.map fun (k, v) => (encode depth (.text k), encode depth v))
    | .date y m d =>
      utf8 ("datetime.date(" ++ Text.join ", " [toString y, toString m, toString d] ++ ")")
    | .duration days seconds => utf8 (durationText days seconds)
    | .decimal s => utf8 ("Decimal(" ++ Text.quote s ++ ")")
    | .fraction num den => utf8 (fractionText num den)
    | .path s => utf8 (pathText s)
    | .uuid digits => utf8 (uuidText digits)
    | .other place kind => utf8 ("<" ++ place ++ "." ++ kind ++ ">")

def fingerprint (s : Sample) : String := digestText (encode (depthLimit + 1) s)

def plainText : Sample → String
  | .none => "None"
  | .truth b => if b then "True" else "False"
  | .int i => toString i
  | .real x => Number.writeFloat x
  | .text s => s
  | s => s.kind

end Sample

abbrev Arguments := List (String × Sample)

/-- The key of a call: its arguments in the order of their names. -/
def Arguments.key (a : Arguments) : String :=
  if a.isEmpty then "-"
  else Text.join "," ((a.mergeSort fun x y => decide (x.1 ≤ y.1)).map fun (k, v) => k ++ "=" ++ v.plainText)

structure Probe where
  name : String
  /-- The arguments that it is called with besides none. -/
  calls : List Arguments
  /-- The result of a call, given how many calls were made, this one included. -/
  result : Arguments → Nat → Sample

structure ProbeReport where
  kind : String
  /-- The fingerprints of two calls without arguments. -/
  stable : List String
  /-- The fingerprints of the other calls by their keys. -/
  byKey : List (String × String)
  /-- The fingerprints of all arguments. -/
  arguments : List String

/-- Call a probe twice without arguments and once with all others. -/
def Probe.report (p : Probe) : ProbeReport where
  kind := (p.result [] 1).kind
  stable := [(p.result [] 1).fingerprint, (p.result [] 2).fingerprint]
  byKey := p.calls.zipIdx.map fun (a, i) => (a.key, (p.result a (i + 3)).fingerprint)
  arguments := p.calls.flatMap fun a => a.map (·.2.fingerprint)

/-- The names of the calls of a probe, in their order. -/
def ProbeReport.callNames (r : ProbeReport) : List String :=
  ("<default>" :: r.byKey.map (·.1)).mergeSort fun a b => decide (a ≤ b)

end QuadLang.Fingerprint
