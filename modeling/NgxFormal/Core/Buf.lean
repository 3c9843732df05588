import NgxFormal.Lib.Window

/-! `ngx_buf_t`: a stretch of memory, a stretch of a file, or both with the same bytes. -/

namespace NgxFormal.Core

open NgxFormal.Lib.Window

/-- The fields of `ngx_buf_t` that the filters look at, with the memory and the file that the
pointers and the offsets refer to. -/
structure Buf where
  pos : Nat
  last : Nat
  filePos : Nat
  fileLast : Nat
  temporary : Bool
  memory : Bool
  mmap : Bool
  inFile : Bool
  flush : Bool
  sync : Bool
  lastBuf : Bool
  mem : Nat → UInt8
  file : Nat → UInt8

def ngxBufInMemory (b : Buf) : Bool := b.temporary || b.memory || b.mmap

def ngxBufSpecial (b : Buf) : Bool :=
  (b.flush || b.lastBuf || b.sync) && !ngxBufInMemory b && !b.inFile

def ngxBufSize (b : Buf) : Nat :=
  if ngxBufInMemory b then b.last - b.pos else b.fileLast - b.filePos

/-- The buffer holds `bytes`, in each of the places where it has them at all. -/
structure Holds (b : Buf) (bytes : List UInt8) : Prop where
  inMemory : ngxBufInMemory b = true → b.pos ≤ b.last ∧ window b.mem b.pos b.last = bytes
  inFile : b.inFile = true → b.filePos ≤ b.fileLast ∧ window b.file b.filePos b.fileLast = bytes
  nowhere : ngxBufInMemory b = false → b.inFile = false → b.filePos = b.fileLast ∧ bytes = []

theorem holds_size {b : Buf} {bytes : List UInt8} (holds : Holds b bytes) :
    ngxBufSize b = bytes.length := by
  rw [ngxBufSize]
  by_cases memory : ngxBufInMemory b = true
  · rw [if_pos memory, ← (holds.inMemory memory).2, window_length]
  · rw [if_neg memory]
    by_cases file : b.inFile = true
    · rw [← (holds.inFile file).2, window_length]
    · obtain ⟨same, empty⟩ := holds.nowhere (by simpa using memory) (by simpa using file)
      rw [same, empty, Nat.sub_self, List.length_nil]

theorem holds_special {b : Buf} {bytes : List UInt8} (holds : Holds b bytes)
    (special : ngxBufSpecial b = true) : bytes = [] := by
  simp only [ngxBufSpecial, Bool.and_eq_true, Bool.not_eq_true'] at special
  exact (holds.nowhere special.1.2 special.2).2

end NgxFormal.Core
