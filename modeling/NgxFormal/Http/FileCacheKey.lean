import NgxFormal.Core.Crc32
import NgxFormal.Core.Md5

/-! The key of a cached response, and the header of its file. -/

namespace NgxFormal.Http.FileCacheKey

open Lib Lib.Window Core.Crc32 Core.Md5

/-- The fields of `ngx_http_cache_t` behind the key and the header. -/
structure HttpCache where
  keys : List (List UInt8)
  crc32 : BitVec 32
  key : List UInt8
  validSec : BitVec 64
  lastModified : BitVec 64
  date : BitVec 64
  headerStart : Nat
  bodyStart : Nat
  validMsec : Nat
  deriving DecidableEq, Repr

def ngxHttpFileCacheKey : List UInt8 := [LF, chr 'K', chr 'E', chr 'Y', chr ':', chr ' ']

/-- `sizeof(ngx_http_file_cache_header_t)`: the last six bytes are no field. -/
def headerSize : Nat := 40

def ngxHttpFileCacheCreateKey (c : HttpCache) (memory : Nat → UInt8) : HttpCache :=
  let len := c.keys.foldl (fun len key => len + key.length) 0
  let crc32 := c.keys.foldl ngxCrc32Update ngxCrc32Init
  let md5 := c.keys.foldl ngxMd5Update (ngxMd5Init memory)
  { c with
    headerStart := headerSize + ngxHttpFileCacheKey.length + len + 1
    crc32 := ngxCrc32Final crc32
    key := ngxMd5Final md5 }

/-- The fields of the header one behind the other; the assignments cut the last three to 16 bits. -/
def fields (c : HttpCache) : List UInt8 :=
  leBytes 8 c.validSec.toNat ++ leBytes 8 c.lastModified.toNat ++ leBytes 8 c.date.toNat ++
    leBytes 4 c.crc32.toNat ++ leBytes 2 c.validMsec ++ leBytes 2 c.headerStart ++ leBytes 2 c.bodyStart

def copyKey (at_ : Nat × (Nat → UInt8)) (key : List UInt8) : Nat × (Nat → UInt8) :=
  (at_.1 + key.length, store at_.2 at_.1 key)

def ngxHttpFileCacheSetHeader (c : HttpCache) (buf : Nat) (mem : Nat → UInt8) : Nat → UInt8 :=
  let mem := store mem buf (fields c)
  let p := buf + headerSize
  let mem := store mem p ngxHttpFileCacheKey
  let (p, mem) := c.keys.foldl copyKey (p + ngxHttpFileCacheKey.length, mem)
  store mem p [LF]

def field (buf : List UInt8) (offset size : Nat) : Nat := leValue ((buf.drop offset).take size)

/-- `ngx_http_file_cache_read` up to the node, for the contents of the file; `none` declines it. -/
def ngxHttpFileCacheRead (c : HttpCache) (file : List UInt8) : Option HttpCache :=
  let buf := file.take c.bodyStart
  if buf.length < c.headerStart then none
  else if field buf 24 4 ≠ c.crc32.toNat then none
  else if field buf 32 2 > c.bodyStart then none
  else some { c with
    validSec := BitVec.ofNat 64 (field buf 0 8)
    lastModified := BitVec.ofNat 64 (field buf 8 8)
    date := BitVec.ofNat 64 (field buf 16 8)
    validMsec := field buf 28 2
    headerStart := field buf 30 2
    bodyStart := field buf 32 2 }

/-- What a request gets from the header that another one has written. -/
def restored (w r : HttpCache) : HttpCache :=
  { r with
    validSec := w.validSec
    lastModified := w.lastModified
    date := w.date
    validMsec := w.validMsec % 2 ^ 16
    headerStart := w.headerStart % 2 ^ 16
    bodyStart := w.bodyStart % 2 ^ 16 }

variable {c w r : HttpCache} {buf : Nat} {mem memory memory' : Nat → UInt8}

theorem createKey_eq : ngxHttpFileCacheCreateKey c memory = { c with
    headerStart := 47 + c.keys.flatten.length
    crc32 := checksum c.keys.flatten
    key := md5 c.keys.flatten } := by
  have len (keys : List (List UInt8)) (n : Nat) :
      keys.foldl (fun len key => len + key.length) n = n + keys.flatten.length := by
    induction keys generalizing n with
    | nil => rfl
    | cons key rest ih => rw [List.foldl_cons, ih, List.flatten_cons, List.length_append, Nat.add_assoc]
  have digest : ngxMd5Final (c.keys.foldl ngxMd5Update (ngxMd5Init memory)) = md5 c.keys.flatten :=
    ((holds_init memory).pieces c.keys).final
  rw [ngxHttpFileCacheCreateKey, len, update_pieces, digest,
    show headerSize + ngxHttpFileCacheKey.length = 46 by rfl, Nat.zero_add, Nat.add_right_comm]

theorem copyKeys_eq (keys : List (List UInt8)) (p : Nat) (mem : Nat → UInt8) :
    keys.foldl copyKey (p, mem) = (p + keys.flatten.length, store mem p keys.flatten) := by
  induction keys generalizing p mem with
  | nil => rw [List.foldl_nil, List.flatten_nil, store_empty, List.length_nil, Nat.add_zero]
  | cons key rest ih =>
    rw [List.foldl_cons, copyKey, ih, store_append, List.flatten_cons, List.length_append, Nat.add_assoc]

theorem setHeader_eq : ngxHttpFileCacheSetHeader c buf mem = store (store mem buf (fields c))
    (buf + 40) (ngxHttpFileCacheKey ++ (c.keys.flatten ++ [LF])) := by
  rw [ngxHttpFileCacheSetHeader]
  dsimp only
  rw [copyKeys_eq]
  dsimp only
  rw [store_append, store_append, headerSize]

theorem fields_length : (fields c).length = 34 := by
  simp only [fields, List.length_append, leBytes_length]

theorem leValue_leBytes_mod (width n : Nat) : leValue (leBytes width n) = n % 256 ^ width := by
  induction width generalizing n with
  | zero => rw [Nat.pow_zero, Nat.mod_one, leBytes, leValue]
  | succ width ih =>
    rw [leBytes, leValue, ih, Nat.pow_succ', UInt8.toNat_ofNat']
    exact (Nat.mod_mul ..).symm

theorem drop_leBytes {k width : Nat} (behind : width ≤ k) (n : Nat) : (leBytes width n).drop k = [] := by
  rwa [List.drop_eq_nil_iff, leBytes_length]

theorem read_fields {file rest : List UInt8} (start : file.take r.bodyStart = fields w ++ rest)
    (room : r.headerStart ≤ 34 + rest.length) (crc : w.crc32 = r.crc32) :
    ngxHttpFileCacheRead r file =
      if w.bodyStart % 2 ^ 16 ≤ r.bodyStart then some (restored w r) else none := by
  have checksum : w.crc32.toNat % 256 ^ 4 = r.crc32.toNat := by
    rw [crc]
    exact Nat.mod_eq_of_lt r.crc32.isLt
  have time (t : BitVec 64) : BitVec.ofNat 64 (t.toNat % 256 ^ 8) = t := by
    rw [show 256 ^ 8 = 2 ^ 64 by rfl, Nat.mod_eq_of_lt t.isLt, BitVec.ofNat_toNat, BitVec.setWidth_eq]
  have read : field (fields w ++ rest) 0 8 = w.validSec.toNat % 256 ^ 8 ∧
      field (fields w ++ rest) 8 8 = w.lastModified.toNat % 256 ^ 8 ∧
      field (fields w ++ rest) 16 8 = w.date.toNat % 256 ^ 8 ∧
      field (fields w ++ rest) 24 4 = w.crc32.toNat % 256 ^ 4 ∧
      field (fields w ++ rest) 28 2 = w.validMsec % 256 ^ 2 ∧
      field (fields w ++ rest) 30 2 = w.headerStart % 256 ^ 2 ∧
      field (fields w ++ rest) 32 2 = w.bodyStart % 256 ^ 2 := by
    simp only [← leValue_leBytes_mod]
    simp [field, fields, List.drop_append, drop_leBytes]
  obtain ⟨valid, modified, date, crc32, msec, head, body⟩ := read
  rw [ngxHttpFileCacheRead, start, if_neg (by rw [List.length_append, fields_length]; omega),
    valid, modified, date, crc32, msec, head, body, if_neg (not_not_intro checksum), time, time, time]
  by_cases fits : w.bodyStart % 2 ^ 16 ≤ r.bodyStart
  · rw [if_pos fits]
    exact if_neg (Nat.not_lt_of_le fits)
  · rw [if_neg fits]
    exact if_pos (Nat.lt_of_not_le fits)

/-- A file is read with the key that it has been written with, however the key is cut: the header ends
where the response begins, and what it gives back is right if three numbers fit into 16 bits. -/
theorem cache_header_round_trip (c c' : HttpCache) (same : c.keys.flatten = c'.keys.flatten)
    (memory memory' mem : Nat → UInt8) (buf : Nat) (response : List UInt8) :
    let w := ngxHttpFileCacheCreateKey c memory
    let r := ngxHttpFileCacheCreateKey c' memory'
    let written := ngxHttpFileCacheSetHeader w buf mem
    let file := window written buf (buf + w.headerStart) ++ response
    w.key = r.key ∧ (∀ i, i < buf ∨ buf + w.headerStart ≤ i → written i = mem i) ∧
      ngxHttpFileCacheRead r file =
        if w.headerStart ≤ r.bodyStart ∧ w.bodyStart % 2 ^ 16 ≤ r.bodyStart then some (restored w r)
        else none := by
  intro w r written file
  have made : w = _ := createKey_eq
  have made' : r = _ := createKey_eq
  have size : w.headerStart = 47 + c.keys.flatten.length := by rw [made]
  have size' : r.headerStart = w.headerStart := by rw [size, made', same]
  have keys : w.keys = c.keys := by rw [made]
  have header : written = _ := setHeader_eq
  have text : (ngxHttpFileCacheKey ++ (w.keys.flatten ++ [LF])).length = 7 + c.keys.flatten.length := by
    rw [keys, List.length_append, List.length_append]
    exact (Nat.add_left_comm 6 _ 1).trans (Nat.add_comm _ 7)
  refine ⟨by rw [made, made', same], ?_, ?_⟩
  · intro i outside
    rw [header, store_outside, store_outside]
    · rw [fields_length]
      omega
    · omega
  · have front : window written buf (buf + 34) = fields w := by
      rw [header, window_store_outside (by omega), ← fields_length (c := w)]
      exact window_store
    have parts : file = fields w ++ (window written (buf + 34) (buf + w.headerStart) ++ response) := by
      rw [← List.append_assoc, ← front, window_append (by omega) (by omega)]
    have rest : (window written (buf + 34) (buf + w.headerStart)).length = w.headerStart - 34 := by
      rw [window_length]
      omega
    by_cases room : w.headerStart ≤ r.bodyStart
    · have start : file.take r.bodyStart = fields w ++
          (window written (buf + 34) (buf + w.headerStart) ++ response).take (r.bodyStart - 34) := by
        rw [parts, List.take_append, fields_length, List.take_of_length_le (by rw [fields_length]; omega)]
      rw [read_fields start (by rw [List.length_take, List.length_append]; omega)
        (by rw [made, made', same])]
      simp only [room, true_and]
    · have short : (file.take r.bodyStart).length < r.headerStart := by
        rw [List.length_take]
        omega
      rw [ngxHttpFileCacheRead, if_pos short, if_neg (fun all => room all.1)]

/-- The key `http` and `://h/`, and the same in one piece. -/
def twoKeys : HttpCache := ⟨[[104, 116, 116, 112], [58, 47, 47, 104, 47]], 0, [], 1, 2, 3, 0, 400, 0⟩

theorem cache_header_round_trip_cut :
    let w := ngxHttpFileCacheCreateKey twoKeys fun _ => 0
    let r := ngxHttpFileCacheCreateKey { twoKeys with keys := [twoKeys.keys.flatten] } fun _ => 0
    w.key = r.key :=
  (cache_header_round_trip twoKeys { twoKeys with keys := [twoKeys.keys.flatten] }
    (List.flatten_singleton ..).symm (fun _ => 0) (fun _ => 0) (fun _ => 0) 0 []).1

end NgxFormal.Http.FileCacheKey
