import LoadGenerator.Json.Printer
import LoadGenerator.Text.Numeral

namespace LoadGenerator.Json

namespace Path

inductive Segment where
  | key (name : Bytes)
  | index (i : Nat)
  deriving DecidableEq, Repr

inductive Failure where
  | emptyKey (offset : Nat)
  | unclosed
  | badIndex (digits : Bytes)
  | unexpected (b : UInt8)
  deriving DecidableEq, Repr

def quoted (s : Bytes) : Bytes := utf8 "'" ++ s ++ utf8 "'"

def Failure.message (path : Bytes) : Failure → Bytes
  | .emptyKey offset =>
    utf8 "empty key at offset " ++ Text.ofNat offset ++ utf8 " in " ++ quoted path
  | .unclosed => utf8 "unclosed '[' in " ++ quoted path
  | .badIndex digits => utf8 "invalid index " ++ quoted digits ++ utf8 " in " ++ quoted path
  | .unexpected b => utf8 "unexpected " ++ quoted [b] ++ utf8 " in " ++ quoted path

def isKeyByte (b : UInt8) : Bool := b != 46 && b != 91

def largestIndex : Nat := Word.largest

theorem length_dropWhile_lt {p : UInt8 → Bool} {s : Bytes} (h : s.takeWhile p ≠ []) :
    (s.dropWhile p).length < s.length := by
  have hsplit := congrArg List.length (List.takeWhile_append_dropWhile (p := p) (l := s))
  have hpos := List.length_pos_iff.mpr h
  rw [List.length_append] at hsplit
  omega

mutual

def segments (offset : Nat) : Bytes → Except Failure (List Segment)
  | [] => .ok []
  | 46 :: s => key (offset + 1) s
  | 91 :: s =>
    match h : Bytes.cutByte? 93 s with
    | none => .error .unclosed
    | some (digits, rest) =>
      match Numeral.whole? largestIndex digits with
      | none => .error (.badIndex digits)
      | some i => do
        have := Bytes.length_of_cutByte? h
        let more ← segments (offset + digits.length + 2) rest
        .ok (.index i :: more)
  | b :: _ => .error (.unexpected b)
termination_by s => s.length

def key (offset : Nat) (s : Bytes) : Except Failure (List Segment) :=
  let name := s.takeWhile isKeyByte
  if h : name = [] then .error (.emptyKey offset)
  else do
    have := length_dropWhile_lt h
    let more ← segments (offset + name.length) (s.dropWhile isKeyByte)
    .ok (.key name :: more)
termination_by s.length

end

/-- Read a path. It begins with `$`, or with a key whose point may be left out. -/
def parse (path : Bytes) : Except Failure (List Segment) :=
  match path with
  | [] => .ok []
  | 36 :: s => segments 1 s
  | 46 :: _ => segments 0 path
  | _ => key 0 path

end Path

def child? : Path.Segment → Json → Option Json
  | .key name, v => v.member? name
  | .index i, v => v.item? i

def resolve? (path : List Path.Segment) (doc : Json) : Option Json :=
  path.foldlM (fun v segment => child? segment v) doc

/-- The text of a value as an answer: a string without its quotes, all else as compact JSON. -/
def render : Json → Bytes
  | .string s => s
  | v => v.compact

end LoadGenerator.Json
