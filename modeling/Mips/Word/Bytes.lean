import Mips.Word

namespace Mips.Word

def bytes (w : Word) : List UInt8 :=
  [UInt8.ofNat (w.toNat >>> 24), UInt8.ofNat (w.toNat >>> 16), UInt8.ofNat (w.toNat >>> 8),
    UInt8.ofNat w.toNat]

def lowBytes (n : Nat) (w : Word) : List UInt8 := (bytes w).drop (4 - n)

def ofBytes (bs : List UInt8) : Word :=
  ofNat (bs.foldl (fun n b => n * 256 + b.toNat) 0)

def align (a : Word) : Word := ofNat (a.toNat / 4 * 4)

def lane (a : Word) : Nat := a.toNat % 4

/-- A register after a left partial load: the bytes of `word` from `addr` on fill it from the most
significant end, and its own low bytes stay. -/
def loadLeft (reg word addr : Word) : Word :=
  ofBytes ((bytes word).drop (lane addr) ++ (bytes reg).drop (4 - lane addr))

/-- A register after a right partial load: the bytes of `word` up to `addr` fill it from the least
significant end, and its own high bytes stay. -/
def loadRight (reg word addr : Word) : Word :=
  ofBytes ((bytes reg).take (3 - lane addr) ++ (bytes word).take (lane addr + 1))

/-- A memory word after a left partial store: the high bytes of `reg` replace those from `addr`
on. -/
def storeLeft (reg word addr : Word) : Word :=
  ofBytes ((bytes word).take (lane addr) ++ (bytes reg).take (4 - lane addr))

/-- A memory word after a right partial store: the low bytes of `reg` replace those up to
`addr`. -/
def storeRight (reg word addr : Word) : Word :=
  ofBytes ((bytes reg).drop (3 - lane addr) ++ (bytes word).drop (lane addr + 1))

theorem length_bytes (w : Word) : (bytes w).length = 4 := rfl

theorem lane_lt (a : Word) : lane a < 4 := Nat.mod_lt _ (by decide)

@[simp] theorem ofBytes_bytes (w : Word) : ofBytes (bytes w) = w := by
  apply BitVec.eq_of_toNat_eq
  have h := w.isLt
  simp only [ofBytes, bytes, List.foldl_cons, List.foldl_nil, UInt8.toNat_ofNat', ofNat_eq,
    BitVec.toNat_ofNat]
  omega

end Mips.Word
