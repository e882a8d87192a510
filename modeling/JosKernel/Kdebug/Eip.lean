import JosKernel.Kdebug.Bracket
import JosKernel.Lib.Bytes

/-!
# `debuginfo_eip`

`debuginfo_eip` runs `stab_binsearch` three times: for the source file in the
whole table, for the function in the region of the file, and for the line in the
region of the function, or of the file when it has no function.

The function is embedded in two parts.  `eipRegion` is everything before the line
search; it either returns early or hands the line search a `LineQuery`, its local
variables at that point.  `eipLine` is the rest.

`eip_file` and `eip_fn_name` point to the constant `"<unknown>"` or into the
string table; a `Name` says which.  Reading the string table at or past its end is
a `Fault`, as is `panic("User address")`.
-/

namespace JosKernel.Kdebug

open JosKernel.Interval

/-- `ULIM`, the lowest kernel address that has debugging information. -/
def ulim : BitVec 32 := 0xef800000

/-- The bytes of the constant `"<unknown>"`. -/
def unknown : List Byte := asciis ['<', 'u', 'n', 'k', 'n', 'o', 'w', 'n', '>'] ++ [0]

/-- What a `const char *` of the result points to. -/
inductive Name where
  /-- The constant `"<unknown>"`. -/
  | unknown
  /-- `stabstr + off`. -/
  | stabstr (off : BitVec 32)
deriving DecidableEq, Repr

/-- `struct eip_debuginfo`. -/
structure EipDebuginfo where
  eipFile : Name
  eipLine : Int
  eipFnName : Name
  eipFnNamelen : Int
  eipFnAddr : BitVec 32
  eipFnNarg : Int
deriving DecidableEq, Repr

/-- `strfind(s + i, c)`, as an index into the bytes `s`. -/
def strfind (s : List Byte) (c : Byte) (i : Nat) : Except Fault Nat :=
  match h : s[i]? with
  | none => .error (.str i)
  | some b => if b = 0 ∨ b = c then .ok i else strfind s c (i + 1)
termination_by s.length - i
decreasing_by
  obtain ⟨hlt, -⟩ := List.getElem?_eq_some_iff.mp h
  omega

/-- `strfind(name, ':') - name`. -/
def Name.colon (stabstr : List Byte) : Name → Except Fault Int
  | .unknown => return (← strfind Kdebug.unknown (ascii ':') 0)
  | .stabstr off => return (← strfind stabstr (ascii ':') off.toNat) - off.toNat

/-- The local variables of `debuginfo_eip` when it starts the line search. -/
structure LineQuery where
  info : EipDebuginfo
  addr : BitVec 32
  lfile : Int
  lfun : Int
  rfun : Int
  lline : Int
  rline : Int
deriving DecidableEq, Repr

/-- `debuginfo_eip` up to the line search: the result of an early `return -1`, or
what the line search is given. -/
def eipRegion (stabs : List Stab) (stabstr : List Byte) (addr : BitVec 32) :
    Except Fault (EipDebuginfo ⊕ LineQuery) := do
  let info : EipDebuginfo :=
    { eipFile := .unknown, eipLine := 0, eipFnName := .unknown, eipFnNamelen := 9,
      eipFnAddr := addr, eipFnNarg := 0 }
  if addr < ulim then
    throw .userAddress
  if stabstr.getLast? ≠ some 0 then
    return .inl info
  -- search the entire set of stabs for the source file
  let (lfile, rfile) ← stabBinsearch stabs 0 ((stabs.length : Int) - 1) nSo addr
  if lfile = 0 then
    return .inl info
  -- search within that file's stabs for the function definition
  let (lfun, rfun) ← stabBinsearch stabs lfile rfile nFun addr
  if lfun ≤ rfun then
    let e ← readStab stabs lfun
    let name := if e.nStrx.toNat < stabstr.length then .stabstr e.nStrx else info.eipFnName
    let namelen ← name.colon stabstr
    return .inr
      { info := { info with eipFnName := name, eipFnAddr := e.nValue, eipFnNamelen := namelen }
        addr := addr - e.nValue, lfile, lfun, rfun, lline := lfun, rline := rfun }
  else
    -- couldn't find function stab: search the whole file for the line number
    let namelen ← info.eipFnName.colon stabstr
    return .inr
      { info := { info with eipFnAddr := addr, eipFnNamelen := namelen }
        addr, lfile, lfun, rfun, lline := lfile, rline := rfile }

/-- The backward scan for the entry that names the line's file. -/
def scanFile (stabs : List Stab) (lfile lline : Int) : Except Fault Int :=
  if lfile ≤ lline then do
    let e ← readStab stabs lline
    if (e.nType.toNat : Int) ≠ nSol ∧ ((e.nType.toNat : Int) ≠ nSo ∨ e.nValue = 0) then
      scanFile stabs lfile (lline - 1)
    else pure lline
  else pure lline
termination_by (lline - lfile + 1).toNat

/-- The loop that counts the parameters of the function, from `lline` on. -/
def countParams (stabs : List Stab) (rfun lline : Int) : Except Fault Int :=
  if lline < rfun then do
    let e ← readStab stabs lline
    if (e.nType.toNat : Int) = nPsym then
      return (← countParams stabs rfun (lline + 1)) + 1
    else pure 0
  else pure 0
termination_by (rfun - lline).toNat

/-- The search backwards from the line number for the relevant filename stab, and
the file name it gives. -/
def eipFile (stabs : List Stab) (stabstr : List Byte) (q : LineQuery) (lline : Int) :
    Except Fault Name := do
  let lline ← scanFile stabs q.lfile lline
  if q.lfile ≤ lline then do
    let e ← readStab stabs lline
    pure (if e.nStrx.toNat < stabstr.length then .stabstr e.nStrx else q.info.eipFile)
  else pure q.info.eipFile

/-- The number of arguments taken by the function, or 0 if there was no containing
function. -/
def eipNarg (stabs : List Stab) (q : LineQuery) : Except Fault Int :=
  if q.lfun < q.rfun then countParams stabs q.rfun (q.lfun + 1) else pure 0

/-- `debuginfo_eip` from the line search on. -/
def eipLine (stabs : List Stab) (stabstr : List Byte) (q : LineQuery) :
    Except Fault (Int × EipDebuginfo) := do
  let (lline, rline) ← stabBinsearch stabs q.lline q.rline nSline q.addr
  if rline < lline then
    return (-1, q.info)
  let e ← readStab stabs rline
  let file ← eipFile stabs stabstr q lline
  let narg ← eipNarg stabs q
  return (0, { q.info with eipFile := file, eipLine := e.nDesc.toNat, eipFnNarg := narg })

/-- `debuginfo_eip(addr, info)`: the value returned and what is left in `*info`. -/
def debuginfoEip (stabs : List Stab) (stabstr : List Byte) (addr : BitVec 32) :
    Except Fault (Int × EipDebuginfo) := do
  match ← eipRegion stabs stabstr addr with
  | .inl info => return (-1, info)
  | .inr q => eipLine stabs stabstr q

end JosKernel.Kdebug
