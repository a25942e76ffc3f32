import Cqy.Wire.Message

/-!
# The codec gives back what was encoded

Both `make` overloads write the body first and lay the header over the front afterwards, whatever
the string held before.  `Decodes` lists what a reader of the frame sees; it holds of every frame
that `make` builds with a body shorter than `2 ^ 32` bytes and a name that fits its length byte.
-/

namespace Cqy.CqyStr

open Foundation Foundation.Bytes

/-- `parse(true)` accepts `s`, and its accessors return the listed values. -/
structure Decodes (s : CqyStr) (source toId session : UInt32) (t : UInt8) (rsp route : Bool)
    (name msgdata : Bytes) : Prop where
  parse : ∃ m, s.parse true = some m ∧ m.fromId = source ∧ m.toId = toId ∧ m.session = session ∧
    m.type = t ∧ m.response = rsp ∧ m.route = route
  name : s.name.read s = name ∧ s.name.size = name.length
  buffer : s.buffer.read s = msgdata ∧ s.buffer.size = msgdata.length
  «end» : s.end = s.length

/-! ## The header bits -/

theorem plainHeader_route (source toId session : UInt32) (t : UInt8) (rsp : Bool) (size : ℕ) :
    (plainHeader source toId session t rsp size).route = false := by
  simp only [CqyMsg.route, plainHeader]
  cases rsp <;> decide

theorem plainHeader_response (source toId session : UInt32) (t : UInt8) (rsp : Bool) (size : ℕ) :
    (plainHeader source toId session t rsp size).response = rsp := by
  simp only [CqyMsg.response, plainHeader]
  cases rsp <;> decide

theorem routedHeader_route (source : UInt32) (nodeto : UInt8) (session : UInt32) (t : UInt8)
    (rsp : Bool) (size : ℕ) : (routedHeader source nodeto session t rsp size).route = true := by
  simp only [CqyMsg.route, routedHeader]
  cases rsp <;> decide

theorem routedHeader_response (source : UInt32) (nodeto : UInt8) (session : UInt32) (t : UInt8)
    (rsp : Bool) (size : ℕ) : (routedHeader source nodeto session t rsp size).response = rsp := by
  simp only [CqyMsg.response, routedHeader]
  cases rsp <;> decide

/-! ## What every frame decodes to

The length members are cut to their width, so a frame of any size is accepted. -/

theorem parse_make (fill : ℕ → UInt8) (s : CqyStr) (source toId session : UInt32) (t : UInt8)
    (rsp : Bool) (msgdata : Bytes) :
    parse (make fill s source toId session t rsp msgdata) true =
      some (plainHeader source toId session t rsp msgdata.length) := by
  rw [make_eq, parse_true_eq_some_iff, msg_bytes_append, plainHeader_route, List.length_append,
    CqyMsg.length_bytes, Nat.add_sub_cancel_left]
  have hlen : (UInt32.ofNat msgdata.length).toNat ≤ msgdata.length := by
    rw [UInt32.toNat_ofNat']
    exact Nat.mod_le _ _
  exact ⟨rfl, Nat.le_add_right _ _, hlen, fun h ↦ absurd h (by decide)⟩

theorem name_make (fill : ℕ → UInt8) (s : CqyStr) (source toId session : UInt32) (t : UInt8)
    (rsp : Bool) (msgdata : Bytes) :
    (make fill s source toId session t rsp msgdata).name = ⟨0, 0⟩ := by
  rw [make_eq, CqyStr.name, msg_bytes_append, plainHeader_route]
  rfl

theorem parse_makeRouted (fill : ℕ → UInt8) (s : CqyStr) (source : UInt32) (nodeto : UInt8)
    (name : Bytes) (session : UInt32) (t : UInt8) (rsp : Bool) (msgdata : Bytes) :
    parse (makeRouted fill s source nodeto name session t rsp msgdata) true =
      some (routedHeader source nodeto session t rsp (1 + name.length + msgdata.length)) := by
  rw [makeRouted_eq, parse_true_eq_some_iff, List.cons_append, nameSize_bytes_append,
    msg_bytes_append, List.length_append, CqyMsg.length_bytes, Nat.add_sub_cancel_left]
  have hbody : (UInt8.ofNat name.length :: (name ++ msgdata)).length =
      1 + name.length + msgdata.length := by
    rw [List.length_cons, List.length_append]
    omega
  have hlen : (UInt32.ofNat (1 + name.length + msgdata.length)).toNat ≤
      1 + name.length + msgdata.length := by
    rw [UInt32.toNat_ofNat']
    exact Nat.mod_le _ _
  have hname : (UInt8.ofNat name.length).toNat ≤ name.length := by
    rw [UInt8.toNat_ofNat']
    exact Nat.mod_le _ _
  rw [hbody]
  exact ⟨rfl, Nat.le_add_right _ _, hlen, fun _ ↦ by omega⟩

/-- The name that a routed frame carries: as many bytes of it as the length byte says. -/
theorem name_makeRouted (fill : ℕ → UInt8) (s : CqyStr) (source : UInt32) (nodeto : UInt8)
    (name : Bytes) (session : UInt32) (t : UInt8) (rsp : Bool) (msgdata : Bytes) :
    let frame := makeRouted fill s source nodeto name session t rsp msgdata
    frame.name.size = name.length % 256 ∧
      frame.name.read frame = name.take (name.length % 256) := by
  intro frame
  let hdr := routedHeader source nodeto session t rsp (1 + name.length + msgdata.length)
  have hframe : frame = (hdr.bytes ++ [UInt8.ofNat name.length]) ++ (name ++ msgdata) := by
    rw [show frame = _ from makeRouted_eq fill s source nodeto name session t rsp msgdata]
    simp [hdr]
  have hview : frame.name = ⟨headerSize + 1, name.length % 256⟩ := by
    rw [show frame = _ from makeRouted_eq fill s source nodeto name session t rsp msgdata,
      CqyStr.name, List.cons_append, msg_bytes_append, nameSize_bytes_append, routedHeader_route,
      if_pos rfl, UInt8.toNat_ofNat']
  have hpre : (hdr.bytes ++ [UInt8.ofNat name.length]).length = headerSize + 1 := by
    rw [List.length_append, CqyMsg.length_bytes, List.length_singleton]
  rw [hview]
  refine ⟨rfl, ?_⟩
  have hle : name.length % 256 ≤ name.length := Nat.mod_le _ _
  rw [View.read, hframe, ← hpre, List.drop_left, List.take_append_of_le_length hle]

/-! ## The two forms -/

theorem make_decodes (fill : ℕ → UInt8) (s : CqyStr) (source toId session : UInt32) (t : UInt8)
    (rsp : Bool) (msgdata : Bytes) (hsize : msgdata.length < 2 ^ 32) :
    Decodes (make fill s source toId session t rsp msgdata) source toId session t rsp false []
      msgdata := by
  rw [make_eq]
  let hdr := plainHeader source toId session t rsp msgdata.length
  have hmsg : msg (hdr.bytes ++ msgdata) = hdr := msg_bytes_append hdr msgdata
  have hroute : hdr.route = false := plainHeader_route source toId session t rsp msgdata.length
  have hlen : hdr.len.toNat = msgdata.length := UInt32.toNat_ofNat_of_lt' hsize
  have hlength : (hdr.bytes ++ msgdata).length = headerSize + msgdata.length := by
    rw [List.length_append, CqyMsg.length_bytes]
  refine ⟨⟨hdr, ?_, rfl, rfl, rfl, rfl, ?_, hroute⟩, ⟨?_, ?_⟩, ⟨?_, ?_⟩, ?_⟩
  · rw [parse_true_eq_some_iff, hmsg, hlength, hlen, hroute]
    simp
  · exact plainHeader_response source toId session t rsp msgdata.length
  · simp [CqyStr.name, hdr, hmsg, hroute]
  · simp [CqyStr.name, hdr, hmsg, hroute]
  · have h := View.read_append_end hdr.bytes msgdata
    rw [CqyMsg.length_bytes] at h
    rw [CqyStr.buffer, hmsg, hroute, hlen]
    exact h
  · rw [CqyStr.buffer, hmsg, hroute, hlen]
    rfl
  · rw [CqyStr.end, hmsg, hlen, hlength]

theorem makeRouted_decodes (fill : ℕ → UInt8) (s : CqyStr) (source : UInt32) (nodeto : UInt8)
    (name : Bytes) (session : UInt32) (t : UInt8) (rsp : Bool) (msgdata : Bytes)
    (hname : name.length < 2 ^ 8) (hsize : 1 + name.length + msgdata.length < 2 ^ 32) :
    Decodes (makeRouted fill s source nodeto name session t rsp msgdata) source
      ((⟨0⟩ : CqyHandle).setNodeid nodeto).id session t rsp true name msgdata := by
  rw [makeRouted_eq]
  let hdr := routedHeader source nodeto session t rsp (1 + name.length + msgdata.length)
  let nameByte := UInt8.ofNat name.length
  let frame : CqyStr := hdr.bytes ++ (nameByte :: name ++ msgdata)
  have hmsg : msg frame = hdr := msg_bytes_append hdr _
  have hroute : hdr.route = true := routedHeader_route source nodeto session t rsp _
  have hlen : hdr.len.toNat = 1 + name.length + msgdata.length := UInt32.toNat_ofNat_of_lt' hsize
  have hbyte : nameByte.toNat = name.length := UInt8.toNat_ofNat_of_lt' hname
  have hnameSize : nameSize frame = nameByte := nameSize_bytes_append hdr nameByte _
  have hlength : frame.length = headerSize + (1 + name.length + msgdata.length) := by
    simp only [frame, List.length_append, List.length_cons, CqyMsg.length_bytes]
    omega
  have hview : CqyStr.name frame = ⟨headerSize + 1, name.length⟩ := by
    rw [CqyStr.name, hmsg, hroute, hnameSize, hbyte]
    rfl
  have hbuffer : CqyStr.buffer frame = ⟨headerSize + 1 + name.length, msgdata.length⟩ := by
    have hone : (1 : UInt32) ≤ hdr.len := by
      rw [UInt32.le_iff_toNat_le, hlen, UInt32.toNat_one]
      omega
    have hsub : nameByte.toUInt32 ≤ hdr.len - 1 := by
      rw [UInt32.le_iff_toNat_le, UInt32.toNat_sub_of_le _ _ hone, UInt8.toNat_toUInt32, hbyte,
        hlen, UInt32.toNat_one]
      omega
    rw [CqyStr.buffer, hmsg, hroute, if_pos rfl, hnameSize, UInt32.toNat_sub_of_le _ _ hsub,
      UInt32.toNat_sub_of_le _ _ hone, UInt8.toNat_toUInt32, hbyte, hlen, UInt32.toNat_one]
    congr 1
    omega
  -- the frame, cut where the name and where the payload start
  have hpre : frame = (hdr.bytes ++ [nameByte]) ++ name ++ msgdata := by simp [frame]
  have hprelen : (hdr.bytes ++ [nameByte]).length = headerSize + 1 := by
    rw [List.length_append, CqyMsg.length_bytes, List.length_singleton]
  refine ⟨⟨hdr, ?_, rfl, rfl, rfl, rfl, ?_, hroute⟩, ⟨?_, ?_⟩, ⟨?_, ?_⟩, ?_⟩
  · rw [parse_true_eq_some_iff, hmsg, hnameSize, hbyte, hlength, hlen]
    exact ⟨rfl, by omega, by omega, fun _ ↦ by omega⟩
  · exact routedHeader_response source nodeto session t rsp _
  · change (CqyStr.name frame).read frame = name
    rw [hview, ← hprelen]
    conv_lhs => rw [hpre]
    exact View.read_append _ name msgdata
  · change (CqyStr.name frame).size = name.length
    rw [hview]
  · change (CqyStr.buffer frame).read frame = msgdata
    rw [hbuffer, ← hprelen, ← List.length_append]
    conv_lhs => rw [hpre]
    exact View.read_append_end _ msgdata
  · change (CqyStr.buffer frame).size = msgdata.length
    rw [hbuffer]
  · change CqyStr.end frame = frame.length
    rw [CqyStr.end, hmsg, hlen, hlength]

theorem make_route (fill : ℕ → UInt8) (s : CqyStr) (source toId session : UInt32) (t : UInt8)
    (rsp : Bool) (msgdata : Bytes) :
    (msg (make fill s source toId session t rsp msgdata)).route = false := by
  rw [msg_make]
  exact plainHeader_route _ _ _ _ _ _

theorem makeRouted_route (fill : ℕ → UInt8) (s : CqyStr) (source : UInt32) (nodeto : UInt8)
    (name : Bytes) (session : UInt32) (t : UInt8) (rsp : Bool) (msgdata : Bytes) :
    (msg (makeRouted fill s source nodeto name session t rsp msgdata)).route = true := by
  rw [msg_makeRouted]
  exact routedHeader_route _ _ _ _ _ _

/-- Decoding inverts both encoders, and no frame is the work of both. -/
theorem make_round_trip (fill : ℕ → UInt8) (s : CqyStr) (source session : UInt32) (t : UInt8)
    (rsp : Bool) (msgdata : Bytes) :
    (∀ toId, msgdata.length < 2 ^ 32 →
      Decodes (make fill s source toId session t rsp msgdata) source toId session t rsp false []
        msgdata) ∧
    (∀ nodeto name, 1 ≤ name.length → name.length ≤ 254 →
      1 + name.length + msgdata.length < 2 ^ 32 → ∃ h : CqyHandle, h.nodeid = nodeto ∧
        h.ctxid = 0 ∧ Decodes (makeRouted fill s source nodeto name session t rsp msgdata) source
          h.id session t rsp true name msgdata) ∧
    (∀ toId fill' s' source' nodeto name session' t' rsp' msgdata',
      make fill s source toId session t rsp msgdata ≠
        makeRouted fill' s' source' nodeto name session' t' rsp' msgdata') := by
  refine ⟨fun toId hsize ↦ make_decodes fill s source toId session t rsp msgdata hsize, ?_, ?_⟩
  · intro nodeto name _ hname hsize
    exact ⟨(⟨0⟩ : CqyHandle).setNodeid nodeto, CqyHandle.nodeid_setNodeid _ _,
      (CqyHandle.ctxid_setNodeid _ _).trans rfl,
      makeRouted_decodes fill s source nodeto name session t rsp msgdata (by omega) hsize⟩
  · intro toId fill' s' source' nodeto name session' t' rsp' msgdata' heq
    have hplain := make_route fill s source toId session t rsp msgdata
    rw [heq, makeRouted_route] at hplain
    exact absurd hplain (by decide)

/-- `hello` to context `0x01000001`, and the same payload to the name `pong` on node 1. -/
theorem make_round_trip_hello :
    Decodes (make (fun _ ↦ 0) [] 0x02000001 0x01000001 1 0 false [104, 101, 108, 108, 111])
      0x02000001 0x01000001 1 0 false false [] [104, 101, 108, 108, 111] ∧
    ∃ h : CqyHandle, h.nodeid = 1 ∧ h.ctxid = 0 ∧
      Decodes (makeRouted (fun _ ↦ 0) [] 0x02000001 1 [112, 111, 110, 103] 1 0 false
        [104, 101, 108, 108, 111]) 0x02000001 h.id 1 0 false true [112, 111, 110, 103]
        [104, 101, 108, 108, 111] := by
  have h := make_round_trip (fun _ ↦ 0) [] 0x02000001 1 0 false [104, 101, 108, 108, 111]
  exact ⟨h.1 0x01000001 (by decide), h.2.1 1 [112, 111, 110, 103] (by decide) (by decide)
    (by decide)⟩

end Cqy.CqyStr
