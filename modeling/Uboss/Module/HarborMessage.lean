import Mathlib.Data.List.Basic
import Uboss.Math.BitMask

/-!
# Messages between harbors

A message to another node travels over a socket as a frame: four bytes of length, the payload,
and a cookie of twelve bytes with the source, the destination and the session. All words are
big endian. The high byte of the destination carries the message type; which harbor is meant
is clear from the socket.
-/

namespace Uboss.Module

open Math List Nat UInt32

def headerCookieLength : ℕ := 12

def remoteMax : ℕ := 256

def handleMask : UInt32 := 0xffffff

def handleRemoteShift : UInt32 := 24

def uint32Max : ℕ := 0xffffffff

def ptypeError : UInt32 := 7

def ptypeTagDontcopy : UInt32 := 0x10000

/-- `struct remote_message_header`. -/
structure RemoteMessageHeader where
  source : UInt32
  destination : UInt32
  session : UInt32
  deriving DecidableEq, Repr

/-- `to_bigendian`: the four bytes it stores. -/
def toBigendian (n : UInt32) : List UInt8 :=
  [(n >>> 24 &&& 0xff).toUInt8, (n >>> 16 &&& 0xff).toUInt8, (n >>> 8 &&& 0xff).toUInt8,
    (n &&& 0xff).toUInt8]

/-- `from_bigendian`, on the bytes of the word as they stand in memory. -/
def fromBigendian (bytes : List UInt8) : UInt32 :=
  (bytes.getD 0 0).toUInt32 <<< 24 ||| (bytes.getD 1 0).toUInt32 <<< 16 |||
    (bytes.getD 2 0).toUInt32 <<< 8 ||| (bytes.getD 3 0).toUInt32

/-- `header_to_message`: the twelve bytes it stores. -/
def headerToMessage (header : RemoteMessageHeader) : List UInt8 :=
  toBigendian header.source ++ toBigendian header.destination ++ toBigendian header.session

def messageToHeader (message : List UInt8) : RemoteMessageHeader where
  source := fromBigendian message
  destination := fromBigendian (message.drop 4)
  session := fromBigendian (message.drop 8)

/-- The buffer that `send_remote` fills: length, payload and cookie. -/
def remoteFrame (buffer : List UInt8) (cookie : RemoteMessageHeader) : List UInt8 :=
  toBigendian (ofNat (buffer.length + headerCookieLength)) ++ buffer ++ headerToMessage cookie

@[simp] theorem length_toBigendian (n : UInt32) : (toBigendian n).length = 4 := rfl

@[simp] theorem length_headerToMessage (header : RemoteMessageHeader) :
    (headerToMessage header).length = headerCookieLength := rfl

@[simp] theorem length_remoteFrame (buffer : List UInt8) (cookie : RemoteMessageHeader) :
    (remoteFrame buffer cookie).length = buffer.length + headerCookieLength + 4 := by
  simp only [remoteFrame, length_append, length_toBigendian, length_headerToMessage]
  omega

theorem toNat_fromBigendian (a b c d : UInt8) (rest : List UInt8) :
    (fromBigendian (a :: b :: c :: d :: rest)).toNat =
      a.toNat * 2 ^ 24 + b.toNat * 2 ^ 16 + c.toNat * 2 ^ 8 + d.toNat := by
  have ha := a.toNat_lt
  have hb := b.toNat_lt
  have hc := c.toNat_lt
  have hd := d.toNat_lt
  -- no byte is shifted out of the word
  have hshift (x k : ℕ) (h : x * 2 ^ k < 2 ^ 32) : x <<< k % 2 ^ 32 = x <<< k := by
    rw [shiftLeft_eq, mod_eq_of_lt h]
  simp only [fromBigendian, getD_cons_zero, getD_cons_succ, UInt32.toNat_or,
    UInt32.toNat_shiftLeft, UInt8.toNat_toUInt32, UInt32.reduceToNat, Nat.reduceMod]
  rw [hshift a.toNat 24 (by omega), hshift b.toNat 16 (by omega), hshift c.toNat 8 (by omega)]
  exact or_bytes hb hc hd

/-- A number is read back. -/
theorem fromBigendian_toBigendian (n : UInt32) (rest : List UInt8) :
    fromBigendian (toBigendian n ++ rest) = n := by
  have hn := n.toNat_lt
  have hbyte (m : ℕ) : m &&& 255 = m % 256 := and_two_pow_sub_one_eq_mod m 8
  apply toNat.inj
  rw [toBigendian]
  simp only [cons_append, nil_append, toNat_fromBigendian, toNat_toUInt8,
    UInt32.toNat_and, UInt32.toNat_shiftRight, UInt32.reduceToNat, Nat.reduceMod, hbyte,
    shiftRight_eq_div_pow]
  omega

/-- The cookie is read back. -/
theorem messageToHeader_headerToMessage (header : RemoteMessageHeader) :
    messageToHeader (headerToMessage header) = header := by
  have hdest : (headerToMessage header).drop 4 =
      toBigendian header.destination ++ toBigendian header.session := rfl
  have hsession : (headerToMessage header).drop 8 = toBigendian header.session ++ [] := rfl
  rw [messageToHeader, hdest, hsession, fromBigendian_toBigendian, fromBigendian_toBigendian,
    headerToMessage, append_assoc, fromBigendian_toBigendian]

end Uboss.Module
