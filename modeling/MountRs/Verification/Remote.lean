import MountRs.Model.Remote

/-! # Frames of the remote protocol have one encoding -/

namespace MountRs.Remote

open Except

variable {n : ℕ} {b stream rest : Bytes} {h : Header}

/-! ## Slices -/

theorem readExact_eq_ok :
    readExact n stream = .ok (b, rest) ↔ b.length = n ∧ stream = b ++ rest := by
  unfold readExact
  split_ifs with hn
  · simp only [Except.ok.injEq, Prod.mk.injEq]
    constructor
    · rintro ⟨rfl, rfl⟩
      exact ⟨List.length_take_of_le hn, (List.take_append_drop _ _).symm⟩
    · rintro ⟨rfl, rfl⟩
      simp
  · refine iff_of_false (by simp) ?_
    rintro ⟨rfl, rfl⟩
    simp at hn

theorem slice_append {i j k : ℕ} (hij : i ≤ j) (hjk : j ≤ k) :
    slice b i j ++ slice b j k = slice b i k := by
  have hsum : k - i = (j - i) + (k - j) := by omega
  have hmid : i + (j - i) = j := by omega
  simp only [slice, hsum, List.take_add, List.drop_drop, hmid]

theorem slice_all (h : b.length = n) : slice b 0 n = b := by
  simp [slice, h]

theorem length_slice {i j : ℕ} (hj : j ≤ b.length) : (slice b i j).length = j - i := by
  simp [slice]
  omega

theorem slice_singleton {i : ℕ} (h : i < b.length) : slice b i (i + 1) = [b.getD i 0] := by
  simp [slice, List.take_one, h]

theorem toBeBytes_slice {i j w : ℕ} (hj : j ≤ b.length) (hw : j - i = w) :
    toBeBytes w (fromBeBytes (slice b i j)) = slice b i j :=
  toBeBytes_fromBeBytes ((length_slice hj).trans hw)

theorem toBeBytes_ofNat_slice {i j : ℕ} (hj : j ≤ b.length) (hw : j - i = 8) :
    toBeBytes 8 (UInt64.ofNat (fromBeBytes (slice b i j))).toNat = slice b i j := by
  have hlt := fromBeBytes_lt (slice b i j)
  rw [length_slice hj, hw] at hlt
  rw [UInt64.toNat_ofNat_of_lt' hlt, toBeBytes_slice hj hw]

theorem fromBeBytes_toNat (x : UInt64) : fromBeBytes (toBeBytes 8 x.toNat) = x.toNat := by
  rw [fromBeBytes_toBeBytes, Nat.mod_eq_of_lt]
  exact x.toNat_lt

/-! ## Headers -/

def Header.Valid (h : Header) : Prop :=
  validLengths h.kind h.requestId h.controlLen h.payloadLen h.count = true

theorem new_eq_ok {kind : Kind} {id : UInt64} {control payload count : ℕ} :
    Header.new kind id control payload count = .ok h ↔
      h.Valid ∧ h = ⟨kind, id, control, payload, count⟩ := by
  simp only [Header.new, bind_eq_ok, failIf_eq_ok, pure_eq_ok, Bool.not_eq_false]
  constructor
  · rintro ⟨-, hvalid, rfl⟩
    exact ⟨hvalid, rfl⟩
  · rintro ⟨hvalid, rfl⟩
    exact ⟨(), hvalid, rfl⟩

theorem check_eq_ok {h' : Header} : h.check = .ok h' ↔ h.Valid ∧ h = h' := by
  rw [Header.check, new_eq_ok]
  constructor
  · rintro ⟨hvalid, rfl⟩
    exact ⟨hvalid, rfl⟩
  · rintro ⟨hvalid, rfl⟩
    exact ⟨hvalid, rfl⟩

theorem length_layout (h : Header) : h.layout.length = HEADER_BYTES := by
  simp [Header.layout, magic, HEADER_BYTES]

theorem Kind.ofByte_eq_some {kind : Kind} {b : UInt8} :
    Kind.ofByte b = some kind ↔ b = kind.byte := by
  constructor
  · intro h
    have hbyte := List.find?_some h
    exact (beq_iff_eq.1 hbyte).symm
  · rintro rfl
    cases kind <;> decide

theorem Header.Valid.le (hv : h.Valid) :
    h.controlLen ≤ MAX_CONTROL_BYTES ∧ h.payloadLen ≤ MAX_IO_BYTES ∧ h.count ≤ MAX_IO_BYTES := by
  unfold Header.Valid validLengths at hv
  split_ifs at hv with hle
  simpa only [not_or, not_lt] using hle

/-- What `validLengths` leaves free in a header of each kind. -/
def Header.shape (h : Header) : Kind → Header
  | .control => ⟨.control, 0, h.controlLen, 0, 0⟩
  | .read => ⟨.read, h.requestId, h.controlLen, 0, h.count⟩
  | .write => ⟨.write, h.requestId, h.controlLen, h.payloadLen, 0⟩
  | .readResult => ⟨.readResult, h.requestId, 0, h.payloadLen, h.payloadLen⟩
  | .writeResult => ⟨.writeResult, h.requestId, 0, 0, h.count⟩
  | .error => ⟨.error, h.requestId, h.controlLen, 0, 0⟩

theorem Header.Valid.eq_shape {kind : Kind} (hv : h.Valid) (hk : h.kind = kind) :
    h = h.shape kind := by
  rcases h with ⟨_, _, _, _, _⟩
  subst hk
  simp only [Header.Valid, validLengths] at hv
  split_ifs at hv
  rename_i k _ _ _ _ _
  rcases k <;> simp_all [Header.shape]

theorem decode_eq_ok (hb : b.length = HEADER_BYTES) :
    Header.decode b = .ok h ↔ h.Valid ∧ b = h.layout := by
  unfold HEADER_BYTES at hb
  simp only [Header.decode, bind_eq_ok, failIf_eq_ok, okOr_eq_ok, new_eq_ok, not_or, not_not]
  constructor
  · rintro ⟨-, ⟨hmagic, hzero, hend⟩, kind, hkind, hvalid, rfl⟩
    refine ⟨hvalid, ?_⟩
    simp (disch := omega) only [Header.layout, toBeBytes_ofNat_slice, toBeBytes_slice]
    rw [← hend, ← hzero, ← hmagic, ← Kind.ofByte_eq_some.1 hkind, ← slice_singleton (by omega)]
    simp (disch := decide) only [slice_append, slice_all hb]
  · rintro ⟨hvalid, rfl⟩
    refine ⟨(), ⟨rfl, rfl, rfl⟩, h.kind, Kind.ofByte_eq_some.2 rfl, hvalid, ?_⟩
    obtain ⟨hcontrol, hpayload, hcount⟩ := hvalid.le
    unfold MAX_CONTROL_BYTES MAX_IO_BYTES at *
    change h = ⟨h.kind, .ofNat (fromBeBytes (toBeBytes 8 h.requestId.toNat)),
      fromBeBytes (toBeBytes 4 h.controlLen), fromBeBytes (toBeBytes 4 h.payloadLen),
      fromBeBytes (toBeBytes 4 h.count)⟩
    rw [fromBeBytes_toNat, UInt64.ofNat_toNat]
    simp (disch := omega) only [fromBeBytes_toBeBytes, Nat.mod_eq_of_lt]

theorem header_read_eq_ok :
    Header.read stream = .ok (h, rest) ↔ h.Valid ∧ stream = h.layout ++ rest := by
  simp only [Header.read, bind_eq_ok, pure_eq_ok, Prod.exists, readExact_eq_ok, Prod.mk.injEq]
  constructor
  · rintro ⟨b, _, ⟨hb, rfl⟩, _, hdecode, rfl, rfl⟩
    obtain ⟨hvalid, rfl⟩ := (decode_eq_ok hb).1 hdecode
    exact ⟨hvalid, rfl⟩
  · rintro ⟨hvalid, rfl⟩
    have hdecode := (decode_eq_ok (length_layout h)).2 ⟨hvalid, rfl⟩
    exact ⟨_, _, ⟨length_layout h, rfl⟩, h, hdecode, rfl, rfl⟩

theorem emit_eq_ok {control data bytes : Bytes} : emit h control data = .ok bytes ↔
    h.Valid ∧ control.length = h.controlLen ∧ data.length = h.payloadLen ∧
      bytes = h.layout ++ (control ++ data) := by
  simp only [emit, Header.encode, bind_eq_ok, check_eq_ok, failIf_eq_ok, pure_eq_ok, not_or,
    not_not]
  constructor
  · rintro ⟨_, ⟨_, ⟨hvalid, rfl⟩, rfl⟩, -, ⟨hcontrol, hdata⟩, rfl⟩
    exact ⟨hvalid, hcontrol, hdata, List.append_assoc _ _ _⟩
  · rintro ⟨hvalid, hcontrol, hdata, rfl⟩
    exact ⟨_, ⟨_, ⟨hvalid, rfl⟩, rfl⟩, (), ⟨hcontrol, hdata⟩, List.append_assoc _ _ _⟩

/-! ## Requests -/

variable {id : UInt64} {request : IoRequest} {length : ℕ} {data : Option Bytes} {bytes : Bytes}

def requestHeader (id : UInt64) (request : IoRequest) (length : ℕ) : Option Bytes → Header
  | some b => ⟨.write, id, IO_PREFIX_BYTES + request.driveId.length, b.length, 0⟩
  | none => ⟨.read, id, IO_PREFIX_BYTES + request.driveId.length, 0, length⟩

theorem length_ioMetadata (request : IoRequest) :
    (ioMetadata request).length = IO_PREFIX_BYTES + request.driveId.length := by
  simp [ioMetadata, IO_PREFIX_BYTES]
  omega

theorem writeRequest_eq_ok : writeRequest id request length data = .ok bytes ↔
    validDriveId request.driveId = true ∧ (requestHeader id request length data).Valid ∧
      bytes = (requestHeader id request length data).layout ++
        (ioMetadata request ++ data.getD []) := by
  cases data <;>
    simp only [writeRequest, requestHeader, bind_eq_ok, failIf_eq_ok, new_eq_ok, emit_eq_ok,
      Bool.not_eq_false] <;>
    constructor
  all_goals
    first
    | rintro ⟨-, hid, _, ⟨hvalid, rfl⟩, -, -, -, rfl⟩
      exact ⟨hid, hvalid, rfl⟩
    | rintro ⟨hid, hvalid, rfl⟩
      exact ⟨(), hid, _, ⟨hvalid, rfl⟩, hvalid, length_ioMetadata _, rfl, rfl⟩

theorem flags_cases {flags : UInt8} (h : flags &&& ~~~1 = 0) : flags = 0 ∨ flags = 1 := by
  have hall : ∀ k < 256, UInt8.ofNat k &&& ~~~1 = 0 → UInt8.ofNat k = 0 ∨ UInt8.ofNat k = 1 := by
    decide +kernel
  simpa using hall flags.toNat flags.toNat_lt (by simpa using h)

theorem readIoMetadata_eq_ok : readIoMetadata h stream = .ok (request, rest) ↔
    h.Valid ∧ (h.kind = .read ∨ h.kind = .write) ∧ validDriveId request.driveId = true ∧
      h.controlLen = IO_PREFIX_BYTES + request.driveId.length ∧
        stream = ioMetadata request ++ rest := by
  simp only [readIoMetadata, bind_eq_ok, check_eq_ok, failIf_eq_ok, pure_eq_ok, Prod.exists,
    readExact_eq_ok, Prod.mk.injEq, not_or, not_not, Bool.not_eq_false]
  constructor
  · rintro ⟨_, ⟨hvalid, rfl⟩, -, hkind, m, _, ⟨hm, rfl⟩, -, ⟨hflags, hlen, hposition, hid⟩, rfl,
      rfl⟩
    unfold IO_PREFIX_BYTES at *
    have hdrive : (slice m 18 h.controlLen).length = (m.getD 0 0).toNat := by
      rw [length_slice (by omega)]
      omega
    refine ⟨hvalid, by tauto, hid, by rw [hdrive, ← hlen], ?_⟩
    have hsplit : m = [m.getD 0 0] ++ [m.getD 1 0] ++ slice m 2 10 ++ slice m 10 18 ++
        slice m 18 h.controlLen := by
      rw [← slice_singleton (by omega), ← slice_singleton (by omega)]
      simp (disch := omega) only [slice_append, slice_all hm]
    simp (disch := omega) only [ioMetadata, hdrive, UInt8.ofNat_toNat, toBeBytes_ofNat_slice]
    rcases flags_cases hflags with hzero | hone
    · have hslice : slice m 10 18 = toBeBytes 8 (0 : UInt64).toNat := by
        rw [← toBeBytes_slice (b := m) (by omega) rfl, not_not.1 fun hne => hposition ⟨hzero, hne⟩]
        rfl
      refine congrArg (· ++ _) (hsplit.trans ?_)
      rw [hzero, hslice]
      simp
    · refine congrArg (· ++ _) (hsplit.trans ?_)
      rw [hone]
      simp (disch := omega) only [if_true, Option.isSome_some, Option.getD_some,
        toBeBytes_ofNat_slice]
      rfl
  · rintro ⟨hvalid, hkind, hid, hlen, rfl⟩
    have hkind' : ¬ (h.kind ≠ .read ∧ h.kind ≠ .write) := by tauto
    have hdrive : slice (ioMetadata request) IO_PREFIX_BYTES h.controlLen = request.driveId := by
      change request.driveId.take (h.controlLen - 18) = _
      exact List.take_of_length_le (by unfold IO_PREFIX_BYTES at hlen; omega)
    have hbyte : ((ioMetadata request).getD 0 0).toNat = request.driveId.length := by
      simp only [validDriveId, Bool.and_eq_true, decide_eq_true_eq] at hid
      exact UInt8.toNat_ofNat_of_lt' (lt_of_le_of_lt hid.1.2 (by decide))
    have hflags : (ioMetadata request).getD 1 0 = if request.position.isSome then 1 else 0 := rfl
    have hhandle : fromBeBytes (slice (ioMetadata request) 2 10) = request.handle.toNat :=
      fromBeBytes_toNat request.handle
    have hposition : fromBeBytes (slice (ioMetadata request) 10 18) =
        (request.position.getD 0).toNat := by
      rw [← fromBeBytes_toNat]
      rfl
    refine ⟨_, ⟨hvalid, rfl⟩, (), hkind', ioMetadata request, _, ⟨?_, rfl⟩, (),
      ⟨?_, ?_, ?_, ?_⟩, ?_, rfl⟩
    · rw [length_ioMetadata, hlen]
    · rw [hflags]
      split_ifs <;> decide
    · rw [hbyte, hlen]
    · rw [hflags, hposition]
      cases request.position <;> simp
    · rwa [hdrive]
    · rw [hdrive, hhandle, hflags, hposition]
      rcases request with ⟨drive, handle, _ | position⟩ <;> simp

def received {μ : Type} (id : UInt64) (request : IoRequest) (length : ℕ) : Option Bytes → Incoming μ
  | some data => .write id request data
  | none => .read id request length

variable {μ : Type} {parse : Bytes → Except FrameError μ}

theorem readBody_eq_ok (hvalid : h.Valid) :
    readBody parse h stream = .ok (received id request length data, rest) ↔
      validDriveId request.driveId = true ∧ h = requestHeader id request length data ∧
        stream = ioMetadata request ++ (data.getD [] ++ rest) := by
  constructor
  · intro hread
    simp only [readBody, bind_eq_ok, check_eq_ok, failIf_eq_ok] at hread
    obtain ⟨_, ⟨-, rfl⟩, -, hkind, hread⟩ := hread
    split_ifs at hread with hcontrol hkindRead
    · simp only [bind_eq_ok, pure_eq_ok, Prod.exists, Prod.mk.injEq] at hread
      obtain ⟨_, _, -, _, -, hvalue, -⟩ := hread
      cases data <;> cases hvalue
    · simp only [bind_eq_ok, pure_eq_ok, Prod.exists, readIoMetadata_eq_ok, Prod.mk.injEq] at hread
      obtain ⟨_, _, ⟨-, -, hid, hlen, rfl⟩, hvalue, rfl⟩ := hread
      rcases data with _ | _ <;> cases hvalue
      exact ⟨hid, (hvalid.eq_shape hkindRead).trans (by rw [Header.shape, hlen]; rfl), rfl⟩
    · simp only [bind_eq_ok, pure_eq_ok, Prod.exists, readIoMetadata_eq_ok, readExact_eq_ok,
        Prod.mk.injEq] at hread
      obtain ⟨_, _, ⟨-, hkind, hid, hlen, rfl⟩, _, _, ⟨hdata, rfl⟩, hvalue, rfl⟩ := hread
      rcases data with _ | _ <;> cases hvalue
      have hshape := hvalid.eq_shape (hkind.resolve_left hkindRead)
      exact ⟨hid, hshape.trans (by rw [Header.shape, hlen, ← hdata]; rfl), rfl⟩
  · rintro ⟨hid, rfl, rfl⟩
    have hmeta : readIoMetadata (requestHeader id request length data)
        (ioMetadata request ++ (data.getD [] ++ rest)) = .ok (request, data.getD [] ++ rest) := by
      refine readIoMetadata_eq_ok.2 ⟨hvalid, ?_, hid, ?_, rfl⟩ <;> cases data <;>
        simp [requestHeader]
    simp only [readBody, bind_eq_ok, check_eq_ok, failIf_eq_ok]
    refine ⟨_, ⟨hvalid, rfl⟩, (), ?_, ?_⟩
    · cases data <;> simp [requestHeader]
    · cases data with
      | none =>
        simp [requestHeader, received] at hmeta ⊢
        rw [hmeta]
        rfl
      | some data =>
        simp [requestHeader, received] at hmeta ⊢
        rw [hmeta, ok_bind, readExact_eq_ok.2 ⟨rfl, rfl⟩]
        rfl

/-- How the server reads one request. -/
def receive {μ : Type} (parse : Bytes → Except FrameError μ) (stream : Bytes) :
    Except FrameError (Incoming μ × Bytes) := do
  let (h, stream) ← Header.read stream
  readBody parse h stream

theorem receive_eq_ok : receive parse stream = .ok (received id request length data, rest) ↔
    ∃ bytes, writeRequest id request length data = .ok bytes ∧ stream = bytes ++ rest := by
  simp only [receive, bind_eq_ok, Prod.exists, header_read_eq_ok, writeRequest_eq_ok]
  constructor
  · rintro ⟨h, _, ⟨hvalid, rfl⟩, hbody⟩
    obtain ⟨hid, rfl, rfl⟩ := (readBody_eq_ok hvalid).1 hbody
    exact ⟨_, ⟨hid, hvalid, rfl⟩, by simp only [List.append_assoc]⟩
  · rintro ⟨_, ⟨hid, hvalid, rfl⟩, rfl⟩
    exact ⟨_, _, ⟨hvalid, List.append_assoc _ _ _⟩,
      (readBody_eq_ok hvalid).2 ⟨hid, rfl, List.append_assoc _ _ _⟩⟩

/-! ## Results -/

def resultHeader (id : UInt64) : Except Bytes IoResult → Header
  | .ok (.read data) => ⟨.readResult, id, 0, data.length, data.length⟩
  | .ok (.write count) => ⟨.writeResult, id, 0, 0, count⟩
  | .error code => ⟨.error, id, code.length, 0, 0⟩

def resultBody : Except Bytes IoResult → Bytes
  | .ok (.read data) => data
  | .ok (.write _) => []
  | .error code => code

/-- What a reader with this buffer and limit gets of a result, when it takes it. -/
def delivered (read : Bool) (buffer : Bytes) (writeLimit : ℕ) :
    Except Bytes IoResult → Option (Except Bytes ℕ × Bytes)
  | .ok (.read data) =>
    if read = true ∧ data.length ≤ buffer.length then
      some (.ok data.length, data ++ buffer.drop data.length)
    else none
  | .ok (.write count) =>
    if read = false ∧ count ≤ writeLimit then some (.ok count, buffer) else none
  | .error code =>
    if code.all (fun b => isAsciiUppercase b || isAsciiDigit b) then some (.error code, buffer)
    else none

variable {result : Except Bytes IoResult} {isRead : Bool} {buffer : Bytes} {writeLimit : ℕ}
  {out : Except Bytes ℕ × Bytes}

theorem writeResult_eq_ok : writeResult id result = .ok bytes ↔
    (resultHeader id result).Valid ∧
      bytes = (resultHeader id result).layout ++ resultBody result := by
  rcases result with code | data | count <;>
    simp only [writeResult, resultHeader, resultBody, bind_eq_ok, failIf_eq_ok, new_eq_ok,
      emit_eq_ok]
  · constructor
    · rintro ⟨-, -, _, ⟨hvalid, rfl⟩, -, -, -, rfl⟩
      exact ⟨hvalid, by simp⟩
    · rintro ⟨hvalid, rfl⟩
      refine ⟨(), ?_, _, ⟨hvalid, rfl⟩, hvalid, rfl, rfl, by simp⟩
      rintro (rfl | hlong) <;> simp_all [Header.Valid, validLengths]
      omega
  all_goals
    constructor
    · rintro ⟨_, ⟨hvalid, rfl⟩, -, -, -, rfl⟩
      exact ⟨hvalid, by simp⟩
    · rintro ⟨hvalid, rfl⟩
      exact ⟨_, ⟨hvalid, rfl⟩, hvalid, rfl, rfl, by simp⟩

theorem readResult_eq_ok : readResult id isRead buffer writeLimit stream = .ok (out, rest) ↔
    ∃ result, delivered isRead buffer writeLimit result = some out ∧ ∃ bytes,
      writeResult id result = .ok bytes ∧ stream = bytes ++ rest := by
  simp only [readResult, bind_eq_ok, Prod.exists, header_read_eq_ok, writeResult_eq_ok,
    failIf_eq_ok, not_not]
  constructor
  · rintro ⟨h, stream, ⟨hvalid, rfl⟩, -, rfl, hread⟩
    suffices hbody : ∃ result, delivered isRead buffer writeLimit result = some out ∧
        h = resultHeader h.requestId result ∧ stream = resultBody result ++ rest by
      obtain ⟨result, hdelivered, hheader, rfl⟩ := hbody
      exact ⟨result, hdelivered, _, ⟨hheader ▸ hvalid, rfl⟩, by rw [← hheader, List.append_assoc]⟩
    split_ifs at hread with herror hkind <;>
      simp only [bind_eq_ok, failIf_eq_ok, pure_eq_ok, Prod.exists, readExact_eq_ok, Prod.mk.injEq,
        Bool.not_eq_false, not_or, not_not, not_lt] at hread
    · obtain ⟨code, _, ⟨hlen, rfl⟩, -, hcode, rfl, rfl⟩ := hread
      refine ⟨.error code, if_pos hcode, (hvalid.eq_shape herror).trans ?_, rfl⟩
      rw [Header.shape, ← hlen]
      rfl
    · obtain ⟨-, ⟨hresult, hfits⟩, data, _, ⟨hlen, rfl⟩, rfl, rfl⟩ := hread
      have hheader := hvalid.eq_shape hresult
      have hcount : h.count = h.payloadLen := congrArg Header.count hheader
      rw [Header.shape, ← hlen] at hheader
      refine ⟨.ok (.read data), ?_, hheader, rfl⟩
      rw [← hlen] at hfits
      rw [delivered, if_pos ⟨hkind, hfits⟩, hcount, hlen]
    · obtain ⟨-, ⟨hresult, hfits⟩, rfl, rfl⟩ := hread
      refine ⟨.ok (.write h.count), if_pos ⟨?_, hfits⟩, hvalid.eq_shape hresult, rfl⟩
      simpa using hkind
  · rintro ⟨result, hdelivered, _, ⟨hvalid, rfl⟩, rfl⟩
    refine ⟨_, _, ⟨hvalid, List.append_assoc _ _ _⟩, (), ?_, ?_⟩
    · rcases result with _ | _ | _ <;> rfl
    · rcases result with code | data | count <;>
        simp only [delivered, Option.ite_none_right_eq_some, Option.some.injEq] at hdelivered
      · obtain ⟨hcode, rfl⟩ := hdelivered
        rw [if_pos (by rfl)]
        simp only [bind_eq_ok, failIf_eq_ok, Prod.exists, readExact_eq_ok, Bool.not_eq_false]
        exact ⟨code, rest, ⟨rfl, rfl⟩, (), hcode, rfl⟩
      · obtain ⟨⟨hread, hfits⟩, rfl⟩ := hdelivered
        rw [if_neg (by simp [resultHeader]), if_pos hread]
        simp only [bind_eq_ok, failIf_eq_ok, Prod.exists, readExact_eq_ok, not_or, not_not, not_lt]
        exact ⟨(), ⟨rfl, hfits⟩, data, rest, ⟨rfl, rfl⟩, rfl⟩
      · obtain ⟨⟨hread, hfits⟩, rfl⟩ := hdelivered
        rw [if_neg (by simp [resultHeader]), hread, if_neg (by decide)]
        simp only [bind_eq_ok, failIf_eq_ok, not_or, not_not, not_lt]
        exact ⟨(), ⟨rfl, hfits⟩, rfl⟩

/-- A reader learns the whole result from what it is given. -/
theorem delivered_injective {result' : Except Bytes IoResult}
    (h : delivered isRead buffer writeLimit result = some out)
    (h' : delivered isRead buffer writeLimit result' = some out) : result = result' := by
  rcases result with code | data | count <;> rcases result' with code' | data' | count' <;>
    simp only [delivered, Option.ite_none_right_eq_some, Option.some.injEq] at h h' <;>
    obtain ⟨hc, rfl⟩ := h <;> obtain ⟨hc', hout⟩ := h' <;> simp_all
  exact (List.append_inj_left hout.2 hout.1).symm

/-! ## Streams -/

/-- A frame with what its reader knows of it. -/
inductive Frame
  | request (id : UInt64) (request : IoRequest) (length : ℕ) (data : Option Bytes)
  | result (id : UInt64) (result : Except Bytes IoResult) (read : Bool) (buffer : Bytes)
    (writeLimit : ℕ)

/-- What a reader of either side returns. -/
abbrev Value (μ : Type) := Incoming μ ⊕ Except Bytes ℕ × Bytes

namespace Frame

def write : Frame → Except FrameError Bytes
  | .request id request length data => writeRequest id request length data
  | .result id result _ _ _ => writeResult id result

def value (μ : Type) : Frame → Option (Value μ)
  | .request id request length data => some (.inl (received id request length data))
  | .result _ result read buffer writeLimit => (delivered read buffer writeLimit result).map .inr

def read (parse : Bytes → Except FrameError μ) : Frame → Bytes → Except FrameError (Value μ × Bytes)
  | .request _ _ _ _, stream => do
    let (value, stream) ← receive parse stream
    return (.inl value, stream)
  | .result id _ read buffer writeLimit, stream => do
    let (out, stream) ← readResult id read buffer writeLimit stream
    return (.inr out, stream)

theorem read_write {frame : Frame} {value : Value μ} (hvalue : frame.value μ = some value)
    (hwrite : frame.write = .ok bytes) : frame.read parse (bytes ++ rest) = .ok (value, rest) := by
  cases frame with
  | request id request length data =>
    cases hvalue
    rw [read, receive_eq_ok.2 ⟨bytes, hwrite, rfl⟩]
    rfl
  | result id result isRead buffer writeLimit =>
    obtain ⟨out, hout, rfl⟩ := Option.map_eq_some_iff.1 hvalue
    rw [read, readResult_eq_ok.2 ⟨result, hout, bytes, hwrite, rfl⟩]
    rfl

end Frame

def readAll (parse : Bytes → Except FrameError μ) :
    List Frame → Bytes → Except FrameError (List (Value μ) × Bytes)
  | [], stream => .ok ([], stream)
  | frame :: frames, stream => do
    let (value, stream) ← frame.read parse stream
    let (values, stream) ← readAll parse frames stream
    return (value :: values, stream)

theorem readAll_flatMap (sent : List (Frame × Value μ × Bytes))
    (hsent : ∀ f ∈ sent, f.1.value μ = some f.2.1 ∧ f.1.write = .ok f.2.2) :
    readAll parse (sent.map (·.1)) (sent.flatMap (·.2.2) ++ rest) =
      .ok (sent.map (·.2.1), rest) := by
  induction sent with
  | nil => rfl
  | cons f sent ih =>
    rw [List.forall_mem_cons] at hsent
    have hread : f.1.read parse (f.2.2 ++ (sent.flatMap (·.2.2) ++ rest)) = .ok (f.2.1, _) :=
      Frame.read_write hsent.1.1 hsent.1.2
    simp only [List.map_cons, List.flatMap_cons, List.append_assoc, readAll, hread, ok_bind,
      ih hsent.2]
    rfl

/-- A request or a result has one encoding: a reader takes a stream exactly when it starts with what
the writer makes of the value read, a result is determined by what its reader is given, and frames
written one after another are read in this order. -/
theorem frames_canonical (parse : Bytes → Except FrameError μ) :
    (∀ id request length data stream rest,
      receive parse stream = .ok (received id request length data, rest) ↔
        ∃ bytes, writeRequest id request length data = .ok bytes ∧ stream = bytes ++ rest) ∧
    (∀ id read buffer writeLimit stream out rest,
      readResult id read buffer writeLimit stream = .ok (out, rest) ↔
        ∃ result, delivered read buffer writeLimit result = some out ∧
          ∃ bytes, writeResult id result = .ok bytes ∧ stream = bytes ++ rest) ∧
    (∀ read buffer writeLimit out result result',
      delivered read buffer writeLimit result = some out →
        delivered read buffer writeLimit result' = some out → result = result') ∧
    ∀ (sent : List (Frame × Value μ × Bytes)) (rest : Bytes),
      (∀ f ∈ sent, f.1.value μ = some f.2.1 ∧ f.1.write = .ok f.2.2) →
        readAll parse (sent.map (·.1)) (sent.flatMap (·.2.2) ++ rest) =
          .ok (sent.map (·.2.1), rest) :=
  ⟨fun _ _ _ _ _ _ => receive_eq_ok, fun _ _ _ _ _ _ _ => readResult_eq_ok,
    fun _ _ _ _ _ _ => delivered_injective, fun sent _ => readAll_flatMap sent⟩

/-- A read that is answered and a write that is refused. -/
def exchange : List (Frame × Value Unit × Bytes) :=
  let reading : IoRequest := ⟨[100], 7, none⟩
  let writing : IoRequest := ⟨[100], 7, some 300⟩
  let refused : Except Bytes IoResult := .error [69, 73, 79]
  [(.request 1 reading 4 none, .inl (.read 1 reading 4),
      (requestHeader 1 reading 4 none).layout ++ ioMetadata reading),
    (.request 2 writing 0 (some [1, 2]), .inl (.write 2 writing [1, 2]),
      (requestHeader 2 writing 0 (some [1, 2])).layout ++ ioMetadata writing ++ [1, 2]),
    (.result 1 (.ok (.read [9])) true [0, 0] 0, .inr (.ok 1, [9, 0]),
      (resultHeader 1 (.ok (.read [9]))).layout ++ [9]),
    (.result 2 refused false [] 2, .inr (.error [69, 73, 79], []),
      (resultHeader 2 refused).layout ++ [69, 73, 79])]

theorem frames_canonical_exchange :
    readAll (fun _ => .error .json) (exchange.map (·.1)) (exchange.flatMap (·.2.2) ++ [5]) =
      .ok (exchange.map (·.2.1), [5]) := by
  refine (frames_canonical _).2.2.2 exchange [5] ?_
  simp only [exchange, List.forall_mem_cons]
  exact ⟨⟨rfl, rfl⟩, ⟨rfl, rfl⟩, ⟨rfl, rfl⟩, ⟨rfl, rfl⟩, by simp⟩

end MountRs.Remote
