import NgxFormal.Basic

/-! The table `usual[]` of the URI parsers, outside Windows. -/

namespace NgxFormal.Http

/-- `ngx_path_separator(c)` -/
def ngxPathSeparator (ch : UInt8) : Bool := ch = chr '/'

/-- `usual[ch >> 5] & (1 << (ch & 0x1f))` -/
def usual (ch : UInt8) : Bool :=
  let word : Nat :=
    if ch.toNat >>> 5 = 0 then 0xffffdbfe
    else if ch.toNat >>> 5 = 1 then 0x7fff37d6
    else 0xffffffff
  word.testBit (ch.toNat &&& 0x1f)

/-- The bytes whose bit in the table is clear. -/
def unusual : List UInt8 :=
  [0, LF, CR, chr ' ', chr '#', chr '%', chr '+', chr '.', chr '/', chr '?']

theorem usual_iff (ch : UInt8) : usual ch = true ↔ ch ∉ unusual := by
  refine byte_table ch ?_
  set_option maxRecDepth 4000 in
  decide

end NgxFormal.Http
