import OscKernel.Newc

/-!
# Reading archives

`cpio.c`, with `hex_to_uint`, `align`, `strcmp` and `memcpy`. The archive lies in a byte memory at
`cpioAddr`. The four functions share one loop and differ in what they do with an entry. A loop has `none` as
its result when it does not end within its rounds, and when a file name overflows its buffer or has no end.
A string is the list of its bytes; of an array without a terminator it is all bytes, as if a `0` followed.
-/

namespace OscKernel.Cpio

def hexDigit (c : UInt8) : ℕ :=
  if 48 ≤ c ∧ c ≤ 57 then c.toNat - 48
  else if 97 ≤ c ∧ c ≤ 102 then c.toNat - 97 + 10
  else if 65 ≤ c ∧ c ≤ 70 then c.toNat - 65 + 10
  else 0

def hexToUintLoop (m : ByteMem) : ℕ → ℕ → ℕ → ℕ
  | _, 0, result => result
  | hexStr, len + 1, result =>
      hexToUintLoop m (hexStr + 1) len ((result * 16 % 2 ^ 32 + hexDigit (m hexStr)) % 2 ^ 32)

def hexToUint (m : ByteMem) (hexStr len : ℕ) : ℕ := hexToUintLoop m hexStr len 0

def align (n alignment : BitVec 32) : BitVec 32 := (n + alignment - 1) &&& ~~~(alignment - 1)

/-- The difference of the first bytes that differ, where the terminator is `0`. -/
def strcmp : List UInt8 → List UInt8 → ℤ
  | [], [] => 0
  | [], c :: _ => -c.toNat
  | c :: _, [] => c.toNat
  | c :: s, d :: t => if c = d then strcmp s t else (c.toNat : ℤ) - d.toNat

def arrayStr (bytes : List UInt8) : List UInt8 := bytes.takeWhile (· ≠ 0)

inductive Out where
  | puts (s : List UInt8)
  | putc (c : UInt8)
  deriving DecidableEq, Repr

def headerSize : ℕ := 110
def magic : List UInt8 := [48, 55, 48, 55, 48, 49]
def trailer : List UInt8 := [84, 82, 65, 73, 76, 69, 82, 33, 33, 33]

def crlf : List UInt8 := [13, 10]
/-- The texts `Invalid cpio header`, with a line end or a colon, and `:  No such file or directory`. -/
def invalidHeader : List UInt8 :=
  [73, 110, 118, 97, 108, 105, 100, 32, 99, 112, 105, 111, 32, 104, 101, 97, 100, 101, 114]
def noSuchFile : List UInt8 :=
  [58, 32, 32, 78, 111, 32, 115, 117, 99, 104, 32, 102, 105, 108, 101, 32, 111, 114, 32, 100, 105, 114, 101,
    99, 116, 111, 114, 121, 13, 10]

def fileSize (m : ByteMem) (header : ℕ) : ℕ := hexToUint m (header + 54) 8
def nameSize (m : ByteMem) (header : ℕ) : ℕ := hexToUint m (header + 94) 8

/-- `filename` after the copy into it: `none` when the copy does not fit or brings no terminator. -/
def fileName (m : ByteMem) (header : ℕ) : Option (List UInt8) :=
  let bytes := ByteMem.read m (header + headerSize) (nameSize m header)
  if 256 < nameSize m header ∨ 0 ∉ bytes then none else some (arrayStr bytes)

def fileAddr (m : ByteMem) (header : ℕ) : ℕ :=
  (header + (align (BitVec.ofNat 32 (headerSize + nameSize m header)) 4).toNat) % 2 ^ 64

def nextHeader (m : ByteMem) (header : ℕ) : ℕ :=
  let fileNameSize := ((align (BitVec.ofNat 32 (headerSize + nameSize m header)) 4).toNat + 2 ^ 64 -
    headerSize) % 2 ^ 32
  let fileSize := (align (BitVec.ofNat 32 (fileSize m header)) 4).toNat
  (header + headerSize + fileNameSize + fileSize) % 2 ^ 64

/-- The loop over the headers. `visit` gets the header and the name of an entry, and goes on or returns. -/
def walk {σ ρ : Type} (m : ByteMem) (visit : ℕ → List UInt8 → σ → σ ⊕ ρ) (atEnd : σ → ρ)
    (invalid : List UInt8 → σ → ρ) : ℕ → ℕ → σ → Option ρ
  | 0, _, _ => none
  | rounds + 1, header, s =>
      let headerMagic := arrayStr (ByteMem.read m header 6)
      if strcmp magic headerMagic = 0 then do
        let name ← fileName m header
        if strcmp name trailer = 0 then some (atEnd s)
        else match visit header name s with
          | .inr r => some r
          | .inl s => walk m visit atEnd invalid rounds (nextHeader m header) s
      else some (invalid headerMagic s)

def cpioList (m : ByteMem) (cpioAddr rounds : ℕ) : Option (List Out) :=
  walk m (fun _ name out => .inl (out ++ [.puts name, .puts crlf])) id
    (fun _ out => out ++ [.puts (invalidHeader ++ crlf)]) rounds cpioAddr []

/-- The functions that look for an entry send the same texts when there is none. -/
def missing (target : List UInt8) : List Out := [.puts target, .puts noSuchFile]
def badHeader (headerMagic : List UInt8) : List Out :=
  [.puts (invalidHeader ++ [58, 32]), .puts headerMagic, .puts crlf]

def search {ρ : Type} (m : ByteMem) (target : List UInt8) (found : ℕ → ρ) (none : List Out → ρ)
    (cpioAddr rounds : ℕ) : Option ρ :=
  walk m (fun header name s => if strcmp name target = 0 then .inr (found header) else .inl s)
    (fun _ : Unit => none (missing target)) (fun headerMagic _ => none (badHeader headerMagic)) rounds
    cpioAddr ()

def cpioCat (m : ByteMem) (cpioAddr rounds : ℕ) (target : List UInt8) : Option (List Out) :=
  search m target
    (fun header => (ByteMem.read m (fileAddr m header) (fileSize m header)).map Out.putc ++ [.puts crlf])
    id cpioAddr rounds

/-- `cpio_get_exec`, with what it sends, the memory it leaves, and what it returns. -/
def cpioGetExec (m : ByteMem) (cpioAddr rounds : ℕ) (target : List UInt8) (execAddr : ℕ) :
    Option (List Out × ByteMem × Option ℕ) :=
  search m target
    (fun header =>
      ([], if execAddr = 0 then m else ByteMem.copy m execAddr (fileAddr m header) (fileSize m header),
        some (fileAddr m header)))
    -- There is no `return` behind the loop.
    (fun out => (out, m, none)) cpioAddr rounds

def cpioGetFileSize (m : ByteMem) (cpioAddr rounds : ℕ) (target : List UInt8) : Option (List Out × ℕ) :=
  search m target (fun header => ([], fileSize m header)) (fun out => (out, 0)) cpioAddr rounds

end OscKernel.Cpio
