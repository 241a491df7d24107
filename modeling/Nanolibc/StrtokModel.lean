import Nanolibc.CString

set_option autoImplicit false

/-!
# `strtok_r`

The text that is scanned changes under the calls, so the buffer is the state, with the pointer in
`*saveptr`. Pointers into the buffer are the distances from its start.
-/
namespace Nanolibc.StrtokModel
open Lib.Program Lib.ArrayHeap CString

/-- `saveptr` is `none` while it is NULL. -/
structure Tok where
  buffer : Bytes
  saveptr : Option ℕ

def deref (p : Option ℕ) : Prog Tok Fault ℕ :=
  match p with
  | some p => pure p
  | none => throw .null

def byteAt (p : ℕ) : Prog Tok Fault UInt8 := do
  let t ← get
  match t.buffer[p]? with
  | some c => pure c
  | none => throw .bounds

def setByte (p : ℕ) (c : UInt8) : Prog Tok Fault Unit := do
  let t ← get
  if p < t.buffer.length then set { t with buffer := t.buffer.set p c } else throw .bounds

def setSaveptr (p : ℕ) : Prog Tok Fault Unit := modify fun t => { t with saveptr := some p }

def strtokR (s : Option ℕ) (delim : Bytes) : Prog Tok Fault (Option ℕ) := do
  let t ← get
  let s ← deref (s.or t.saveptr)
  let skipped ← lift (strspn (t.buffer.drop s) delim)
  let c ← byteAt (s + skipped)
  if c = 0 then do
    setSaveptr (s + skipped)
    return none
  else do
    let token := s + skipped
    let found ← lift (strpbrk (t.buffer.drop token) delim)
    match found with
    | none => do
      let length ← lift (rawmemchr (t.buffer.drop token) 0)
      setSaveptr (token + length)
      return some token
    | some length => do
      setByte (token + length) 0
      setSaveptr (token + length + 1)
      return some token

def callsWithNull : List Text → Prog Tok Fault (List (Option ℕ))
  | [] => pure []
  | d :: ds => do
    let token ← strtokR none d.buffer
    let tokens ← callsWithNull ds
    return token :: tokens

def tokenize : List Text → Prog Tok Fault (List (Option ℕ))
  | [] => pure []
  | d :: ds => do
    let token ← strtokR (some 0) d.buffer
    let tokens ← callsWithNull ds
    return token :: tokens

/-- `strtok`, whose static pointer is the `saveptr` of the state. -/
def strtok (s : Option ℕ) (delim : Bytes) : Prog Tok Fault (Option ℕ) := strtokR s delim

end Nanolibc.StrtokModel
