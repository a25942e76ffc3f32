import Cqy.Wire.Handle

/-!
# The message frame

A frame is a string that starts with a 20-byte header.  A `cqy_msg_t *` is always the start of a
string's data, so the accessors that look past the header take the string itself.  What they
return are views, computed in the 32-bit arithmetic of the source: nothing in the accessors keeps
a view inside the string.
-/

namespace Cqy

open Foundation Foundation.Bytes

/-- `cqy_msg_t`, as a value: `from` and `to` are the ids of two contexts, `route` and `response`
the two low bits of `flags`. -/
structure CqyMsg where
  fromId : UInt32
  toId : UInt32
  session : UInt32
  len : UInt32
  type : UInt8
  flags : UInt8
  reserved2 : UInt8 × UInt8
deriving DecidableEq

/-- `sizeof(cqy_msg_t)`. -/
def headerSize : ℕ := 20

namespace CqyMsg

def route (m : CqyMsg) : Bool := m.flags &&& 1 != 0

def response (m : CqyMsg) : Bool := m.flags &&& 2 != 0

def setRoute (m : CqyMsg) (b : Bool) : CqyMsg :=
  { m with flags := (m.flags &&& 0xfe) ||| (if b then 1 else 0) }

def setResponse (m : CqyMsg) (b : Bool) : CqyMsg :=
  { m with flags := (m.flags &&& 0xfd) ||| (if b then 2 else 0) }

/-- `cqy_msg_t{}`. -/
def zero : CqyMsg := ⟨0, 0, 0, 0, 0, 0, (0, 0)⟩

/-- The object representation: the members in order, without padding. -/
def bytes (m : CqyMsg) : Bytes :=
  wordBytes m.fromId ++ wordBytes m.toId ++ wordBytes m.session ++ wordBytes m.len ++
    [m.type, m.flags, m.reserved2.1, m.reserved2.2]

@[simp] theorem length_bytes (m : CqyMsg) : m.bytes.length = headerSize := rfl

end CqyMsg

/-- `cqy_str`: a string used as a frame. -/
abbrev CqyStr := Bytes

namespace CqyStr

/-! ## Accessors -/

/-- `cqy_str::msg`: the header the first bytes of the string spell. -/
def msg (s : CqyStr) : CqyMsg where
  fromId := loadWord s 0
  toId := loadWord s 4
  session := loadWord s 8
  len := loadWord s 12
  type := loadByte s 16
  flags := loadByte s 17
  reserved2 := (loadByte s 18, loadByte s 19)

/-- The byte `*(uint8_t *)(this + 1)`: the length of the name in a routed frame. -/
def nameSize (s : CqyStr) : UInt8 := loadByte s headerSize

/-- `cqy_msg_t::name`. -/
def name (s : CqyStr) : View :=
  if (msg s).route then ⟨headerSize + 1, (nameSize s).toNat⟩ else ⟨0, 0⟩

/-- `cqy_msg_t::end`. -/
def «end» (s : CqyStr) : ℕ := headerSize + (msg s).len.toNat

/-- `cqy_msg_t::buffer`; the subtractions are the unsigned ones of `uint32_t`. -/
def buffer (s : CqyStr) : View :=
  if (msg s).route then
    ⟨headerSize + 1 + (nameSize s).toNat, ((msg s).len - 1 - (nameSize s).toUInt32).toNat⟩
  else ⟨headerSize, (msg s).len.toNat⟩

/-- `cqy_str::parse`. -/
def parse (s : CqyStr) (check : Bool) : Option CqyMsg :=
  if check then
    if s.length < headerSize then none
    else
      let sz := s.length - headerSize
      if sz < (msg s).len.toNat then none
      else if (msg s).route then
        if sz < 1 then none
        else if sz < (nameSize s).toNat + 1 then none
        else some (msg s)
      else some (msg s)
  else some (msg s)

/-- The four comparisons of `parse(true)`, as what holds when all of them let the frame through. -/
theorem parse_true_eq_some_iff (s : CqyStr) (m : CqyMsg) :
    parse s true = some m ↔ m = msg s ∧ headerSize ≤ s.length ∧
      (msg s).len.toNat ≤ s.length - headerSize ∧
      ((msg s).route = true → (nameSize s).toNat + 1 ≤ s.length - headerSize) := by
  simp only [parse, if_true]
  by_cases hsize : s.length < headerSize
  · simp only [hsize, if_true, reduceCtorEq, false_iff]
    omega
  by_cases hlen : s.length - headerSize < (msg s).len.toNat
  · simp only [hsize, hlen, if_true, if_false, reduceCtorEq, false_iff]
    omega
  by_cases hroute : (msg s).route = true
  · -- the two tests on the name are one: a size below one is below the name's size plus one
    simp only [hsize, hlen, hroute, if_true, if_false, true_imp_iff]
    split_ifs with hone hname
    · simp only [false_iff]
      omega
    · simp only [false_iff]
      omega
    · simp only [Option.some.injEq]
      constructor
      · intro h
        exact ⟨h.symm, by omega, by omega, by omega⟩
      · intro h
        exact h.1.symm
  · simp only [hsize, hlen, hroute, if_false, Bool.false_eq_true, Option.some.injEq,
      false_imp_iff, and_true]
    constructor
    · intro h
      exact ⟨h.symm, by omega, by omega⟩
    · intro h
      exact h.1.symm

theorem parse_true_isSome_iff (s : CqyStr) :
    (parse s true).isSome ↔ headerSize ≤ s.length ∧
      (msg s).len.toNat ≤ s.length - headerSize ∧
      ((msg s).route = true → (nameSize s).toNat + 1 ≤ s.length - headerSize) := by
  rw [Option.isSome_iff_exists]
  simp only [parse_true_eq_some_iff, exists_eq_left]

theorem eq_msg_of_parse {s : CqyStr} {m : CqyMsg} (h : parse s true = some m) : m = msg s :=
  ((parse_true_eq_some_iff s m).mp h).1

/-! ## Construction -/

/-- `cqy_str::make` for a destination id.  The string may already hold something: `resize` keeps
what fits and exposes uninitialised bytes `fill`, all of which are overwritten. -/
def make (fill : ℕ → UInt8) (s : CqyStr) (source toId session : UInt32) (t : UInt8) (rsp : Bool)
    (msgdata : Bytes) : CqyStr :=
  let s := resize fill s (headerSize + msgdata.length)
  let s := write s headerSize msgdata
  let cmsg := CqyMsg.zero
  let cmsg := { cmsg with fromId := source }
  let cmsg := { cmsg with toId := toId }
  let cmsg := { cmsg with session := session }
  let cmsg := { cmsg with len := UInt32.ofNat (s.length - headerSize) }
  let cmsg := cmsg.setResponse rsp
  let cmsg := { cmsg with type := t }
  write s 0 cmsg.bytes

/-- `cqy_str::make` for a name on a node.  The length byte is `name.size()` cut to eight bits. -/
def makeRouted (fill : ℕ → UInt8) (s : CqyStr) (source : UInt32) (nodeto : UInt8) (name : Bytes)
    (session : UInt32) (t : UInt8) (rsp : Bool) (msgdata : Bytes) : CqyStr :=
  let s := resize fill s (headerSize + 1 + name.length + msgdata.length)
  let s := write s headerSize [UInt8.ofNat name.length]
  let s := write s (headerSize + 1) name
  let s := write s (headerSize + name.length + 1) msgdata
  let h : CqyHandle := ⟨0⟩
  let h := h.setNodeid nodeto
  let cmsg := CqyMsg.zero
  let cmsg := { cmsg with fromId := source }
  let cmsg := { cmsg with toId := h.id }
  let cmsg := { cmsg with session := session }
  let cmsg := { cmsg with type := t }
  let cmsg := cmsg.setRoute true
  let cmsg := cmsg.setResponse rsp
  let cmsg := { cmsg with len := UInt32.ofNat (s.length - headerSize) }
  write s 0 cmsg.bytes

/-- The header `make` writes in front of a body of `size` bytes. -/
def plainHeader (source toId session : UInt32) (t : UInt8) (rsp : Bool) (size : ℕ) : CqyMsg where
  fromId := source
  toId := toId
  session := session
  len := UInt32.ofNat size
  type := t
  flags := if rsp then 2 else 0
  reserved2 := (0, 0)

/-- The header `makeRouted` writes in front of a body of `size` bytes. -/
def routedHeader (source : UInt32) (nodeto : UInt8) (session : UInt32) (t : UInt8) (rsp : Bool)
    (size : ℕ) : CqyMsg where
  fromId := source
  toId := ((⟨0⟩ : CqyHandle).setNodeid nodeto).id
  session := session
  len := UInt32.ofNat size
  type := t
  flags := if rsp then 3 else 1
  reserved2 := (0, 0)

/-- Overwriting the two parts of a string of the right length leaves nothing of it. -/
theorem write_header_body {s hdr body : Bytes} (hs : s.length = hdr.length + body.length) :
    write (write s hdr.length body) 0 hdr = hdr ++ body := by
  have hsplit : s = s.take hdr.length ++ s.drop hdr.length ++ [] := by simp
  have hdrop : (s.drop hdr.length).length = body.length := by
    rw [List.length_drop]
    omega
  have htake : (s.take hdr.length).length = hdr.length := by
    rw [List.length_take]
    omega
  have hbody : write s hdr.length body = [] ++ s.take hdr.length ++ body := by
    conv_lhs => rw [hsplit]
    have h := write_append (s.take hdr.length) (s.drop hdr.length) [] body hdrop
    rw [htake] at h
    simpa using h
  rw [hbody]
  simpa using write_append [] (s.take hdr.length) body hdr htake

theorem make_eq (fill : ℕ → UInt8) (s : CqyStr) (source toId session : UInt32) (t : UInt8)
    (rsp : Bool) (msgdata : Bytes) :
    make fill s source toId session t rsp msgdata =
      (plainHeader source toId session t rsp msgdata.length).bytes ++ msgdata := by
  let hdr := (plainHeader source toId session t rsp msgdata.length).bytes
  have hwrite : write (write (resize fill s (headerSize + msgdata.length)) hdr.length msgdata) 0
      hdr = hdr ++ msgdata := write_header_body (by simp [hdr])
  rw [CqyMsg.length_bytes] at hwrite
  rw [← hwrite]
  have hlen : (write (resize fill s (headerSize + msgdata.length)) headerSize msgdata).length =
      headerSize + msgdata.length := by
    rw [length_write _ (by simp), length_resize]
  simp only [make, hlen, Nat.add_sub_cancel_left]
  congr 2
  cases rsp <;> simp [plainHeader, CqyMsg.setResponse, CqyMsg.zero]

theorem makeRouted_eq (fill : ℕ → UInt8) (s : CqyStr) (source : UInt32) (nodeto : UInt8)
    (name : Bytes) (session : UInt32) (t : UInt8) (rsp : Bool) (msgdata : Bytes) :
    makeRouted fill s source nodeto name session t rsp msgdata =
      (routedHeader source nodeto session t rsp (1 + name.length + msgdata.length)).bytes ++
        (UInt8.ofNat name.length :: name ++ msgdata) := by
  let size := headerSize + 1 + name.length + msgdata.length
  let body : Bytes := UInt8.ofNat name.length :: name ++ msgdata
  have hbody : body.length = 1 + name.length + msgdata.length := by
    simp only [body, List.length_append, List.length_cons]
    omega
  let hdr := (routedHeader source nodeto session t rsp (1 + name.length + msgdata.length)).bytes
  have hwrite : write (write (resize fill s size) hdr.length body) 0 hdr = hdr ++ body := by
    refine write_header_body ?_
    rw [length_resize, CqyMsg.length_bytes, hbody]
    omega
  rw [CqyMsg.length_bytes] at hwrite
  -- the three writes of the body are one
  have hparts : write (write (write (resize fill s size) headerSize [UInt8.ofNat name.length])
      (headerSize + 1) name) (headerSize + name.length + 1) msgdata =
        write (resize fill s size) headerSize body := by
    have hoff : headerSize ≤ (resize fill s size).length := by
      rw [length_resize]
      omega
    have hfirst := write_write (resize fill s size) [UInt8.ofNat name.length] name hoff
    have hsecond := write_write (resize fill s size) ([UInt8.ofNat name.length] ++ name) msgdata
      hoff
    rw [List.length_append, List.length_singleton, Nat.add_comm 1, ← Nat.add_assoc] at hsecond
    rw [List.length_singleton] at hfirst
    rw [hfirst, hsecond]
    rfl
  have hlen : (write (resize fill s size) headerSize body).length = size := by
    rw [length_write _ (by rw [length_resize, hbody]; omega), length_resize]
  have hsize : size - headerSize = 1 + name.length + msgdata.length := by omega
  rw [← hwrite]
  simp only [makeRouted]
  rw [hparts, hlen, hsize]
  congr 2
  cases rsp <;> simp [routedHeader, CqyMsg.setRoute, CqyMsg.setResponse, CqyMsg.zero] <;> decide

/-! ## Reading a header back -/

/-- The header is read back from its object representation, whatever follows it. -/
theorem msg_bytes_append (m : CqyMsg) (body : Bytes) : msg (m.bytes ++ body) = m := by
  let tail : Bytes := [m.type, m.flags, m.reserved2.1, m.reserved2.2] ++ body
  have hfrom : loadWord (m.bytes ++ body) 0 = m.fromId := by
    simpa [CqyMsg.bytes, tail] using loadWord_append [] m.fromId
      (wordBytes m.toId ++ (wordBytes m.session ++ (wordBytes m.len ++ tail)))
  have hto : loadWord (m.bytes ++ body) 4 = m.toId := by
    simpa [CqyMsg.bytes, tail] using loadWord_append (wordBytes m.fromId) m.toId
      (wordBytes m.session ++ (wordBytes m.len ++ tail))
  have hsession : loadWord (m.bytes ++ body) 8 = m.session := by
    simpa [CqyMsg.bytes, tail] using loadWord_append (wordBytes m.fromId ++ wordBytes m.toId)
      m.session (wordBytes m.len ++ tail)
  have hlen : loadWord (m.bytes ++ body) 12 = m.len := by
    simpa [CqyMsg.bytes, tail] using loadWord_append
      (wordBytes m.fromId ++ wordBytes m.toId ++ wordBytes m.session) m.len tail
  have htail (i : ℕ) : loadByte (m.bytes ++ body) (16 + i) = loadByte tail i := by
    simpa [CqyMsg.bytes, tail] using loadByte_append_right
      (wordBytes m.fromId ++ wordBytes m.toId ++ wordBytes m.session ++ wordBytes m.len) tail i
  simp only [msg, hfrom, hto, hsession, hlen]
  rw [htail 0, htail 1, htail 2, htail 3]
  simp [tail, loadByte]

theorem msg_make (fill : ℕ → UInt8) (s : CqyStr) (source toId session : UInt32) (t : UInt8)
    (rsp : Bool) (msgdata : Bytes) :
    msg (make fill s source toId session t rsp msgdata) =
      plainHeader source toId session t rsp msgdata.length := by
  rw [make_eq, msg_bytes_append]

theorem msg_makeRouted (fill : ℕ → UInt8) (s : CqyStr) (source : UInt32) (nodeto : UInt8)
    (name : Bytes) (session : UInt32) (t : UInt8) (rsp : Bool) (msgdata : Bytes) :
    msg (makeRouted fill s source nodeto name session t rsp msgdata) =
      routedHeader source nodeto session t rsp (1 + name.length + msgdata.length) := by
  rw [makeRouted_eq, msg_bytes_append]

theorem nameSize_bytes_append (m : CqyMsg) (b : UInt8) (rest : Bytes) :
    nameSize (m.bytes ++ b :: rest) = b := by
  have h := loadByte_append_right m.bytes (b :: rest) 0
  rw [CqyMsg.length_bytes] at h
  exact h

end CqyStr

end Cqy
