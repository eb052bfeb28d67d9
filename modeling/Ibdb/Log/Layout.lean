import Ibdb.Log.Format
import Ibdb.Base.Crc32c
import Ibdb.Lib.Fragmented

/-! Where the fragments of a log lie in its file, and the bytes of the file. -/
namespace Ibdb.Log
open Base Fragmented

/-- A fragment is a piece of a record, tagged with the position of its header. -/
abbrev Fragment := Piece UInt8 ℕ

abbrev Record := Message UInt8 ℕ

def blockEnd (pos : ℕ) : ℕ := (pos / kBlockSize + 1) * kBlockSize

/-- The position of the next header when the file has `len` bytes. -/
def headerPos (len : ℕ) : ℕ :=
  if blockEnd len - len < kHeaderSize then blockEnd len else len

/-- The room for a payload behind a header. -/
def avail (pos : ℕ) : ℕ := blockEnd pos - pos - kHeaderSize

section Positions

theorem blockEnd_eq (pos : ℕ) : blockEnd pos = pos + (4096 - pos % 4096) := by
  unfold blockEnd kBlockSize
  omega

theorem headerPos_eq (len : ℕ) :
    headerPos len = if 4089 < len % 4096 then len + (4096 - len % 4096) else len := by
  unfold headerPos kHeaderSize
  rw [blockEnd_eq]
  split_ifs <;> omega

theorem le_headerPos (len : ℕ) : len ≤ headerPos len := by
  rw [headerPos_eq]
  split_ifs <;> omega

theorem headerPos_mod (len : ℕ) : headerPos len % 4096 ≤ 4089 := by
  rw [headerPos_eq]
  split_ifs <;> omega

theorem avail_eq (pos : ℕ) : avail pos = 4089 - pos % 4096 := by
  unfold avail kHeaderSize
  rw [blockEnd_eq]
  omega

/-- A header fits behind the position of a header. -/
theorem headerPos_add_avail (len : ℕ) :
    headerPos len + kHeaderSize + avail (headerPos len) = blockEnd (headerPos len) := by
  have hmod := headerPos_mod len
  rw [avail_eq, blockEnd_eq]
  unfold kHeaderSize
  omega

theorem blockEnd_mod (pos : ℕ) : blockEnd pos % 4096 = 0 := by
  rw [blockEnd_eq]
  omega

theorem headerPos_blockEnd (pos : ℕ) : headerPos (blockEnd pos) = blockEnd pos := by
  rw [headerPos_eq, if_neg (by rw [blockEnd_mod]; omega)]

theorem avail_blockEnd (pos : ℕ) : avail (blockEnd pos) = 4089 := by
  rw [avail_eq, blockEnd_mod]

end Positions

def kindOf (begin isEnd : Bool) : Kind :=
  if begin && isEnd then .full
  else if begin then .first
  else if isEnd then .last
  else .middle

def recordTypeOf : Kind → RecordType
  | .full => .kFullType
  | .first => .kFirstType
  | .middle => .kMiddleType
  | .last => .kLastType

namespace Fragment

def stop (f : Fragment) : ℕ := f.tag + kHeaderSize + f.payload.length

theorem tag_lt_stop (f : Fragment) : f.tag < f.stop := by
  unfold stop kHeaderSize
  omega

def typeByte (f : Fragment) : UInt8 := UInt8.ofNat (recordTypeOf f.kind).toNat

def header (f : Fragment) : Bytes :=
  LittleEndian.encode 4 (Crc32c.mask (Crc32c.checksum (f.typeByte :: f.payload))).toNat ++
    [UInt8.ofNat (f.payload.length &&& 0xff), UInt8.ofNat (f.payload.length >>> 8), f.typeByte]

def bytes (f : Fragment) : Bytes := f.header ++ f.payload

@[simp] theorem header_length (f : Fragment) : f.header.length = kHeaderSize := by
  simp [header, kHeaderSize]

@[simp] theorem bytes_length (f : Fragment) :
    f.bytes.length = kHeaderSize + f.payload.length := by
  rw [bytes, List.length_append, header_length]

end Fragment

/-- A fragment that leaves something is not empty, or it ends its block. -/
private theorem avail_eq_zero {len : ℕ} (h : avail (headerPos len) = 0) :
    (headerPos len + kHeaderSize) % 4096 < len % 4096 := by
  have hmod := headerPos_mod len
  rw [avail_eq] at h
  rw [headerPos_eq] at h hmod ⊢
  unfold kHeaderSize
  split_ifs at h hmod ⊢ <;> omega

/-- The fragments of what is left of a record, in a file of `len` bytes. -/
def fragments (begin : Bool) (len : ℕ) (left : Bytes) : List Fragment :=
  let pos := headerPos len
  if left.length ≤ avail pos then [⟨kindOf begin true, left, pos⟩]
  else ⟨kindOf begin false, left.take (avail pos), pos⟩ ::
    fragments false (pos + kHeaderSize + avail pos) (left.drop (avail pos))
termination_by (left.length, len % 4096)
decreasing_by
  rw [List.length_drop, Prod.lex_def]
  by_cases h0 : avail (headerPos len) = 0
  · right
    have hmod := avail_eq_zero h0
    rw [h0]
    exact ⟨rfl, hmod⟩
  · left
    show left.length - avail (headerPos len) < left.length
    omega

theorem fragments_of_le (begin : Bool) {len : ℕ} {left : Bytes}
    (h : left.length ≤ avail (headerPos len)) :
    fragments begin len left = [⟨kindOf begin true, left, headerPos len⟩] := by
  rw [fragments]
  exact if_pos h

theorem fragments_of_lt (begin : Bool) {len : ℕ} {left : Bytes}
    (h : avail (headerPos len) < left.length) :
    fragments begin len left =
      ⟨kindOf begin false, left.take (avail (headerPos len)), headerPos len⟩ ::
        fragments false (blockEnd (headerPos len)) (left.drop (avail (headerPos len))) := by
  rw [fragments, ← headerPos_add_avail]
  exact if_neg (Nat.not_le.mpr h)

theorem rest_fragments (len : ℕ) (left : Bytes) : Rest left (fragments false len left) := by
  generalize hb : false = begin
  fun_induction fragments begin len left with
  | case1 begin len left pos h =>
    subst hb
    exact Rest.last (p := ⟨kindOf false true, left, pos⟩) rfl
  | case2 begin len left pos h ih =>
    subst hb
    have hrest := Rest.middle (p := ⟨kindOf false false, left.take (avail pos), pos⟩) rfl (ih rfl)
    rwa [List.take_append_drop] at hrest

theorem cut_fragments (len : ℕ) (content : Bytes) : Cut content (fragments true len content) := by
  rw [fragments]
  split
  next => exact Cut.full (p := ⟨kindOf true true, content, headerPos len⟩) rfl
  next =>
    have hrest := rest_fragments (headerPos len + kHeaderSize + avail (headerPos len))
      (content.drop (avail (headerPos len)))
    have hcut := Cut.first (p := ⟨kindOf true false, content.take (avail (headerPos len)),
      headerPos len⟩) rfl hrest
    rwa [List.take_append_drop] at hcut

def stopFrom (len : ℕ) (fs : List Fragment) : ℕ := fs.foldl (fun _ f => Fragment.stop f) len

@[simp] theorem stopFrom_nil (len : ℕ) : stopFrom len [] = len := rfl

@[simp] theorem stopFrom_cons (len : ℕ) (f : Fragment) (fs : List Fragment) :
    stopFrom len (f :: fs) = stopFrom (Fragment.stop f) fs := rfl

def recordAt (len : ℕ) (content : Bytes) : Record :=
  ⟨content, fragments true len content, cut_fragments len content⟩

def recordsFrom : ℕ → List Bytes → List Record
  | _, [] => []
  | len, r :: rs => recordAt len r :: recordsFrom (stopFrom len (recordAt len r).pieces) rs

def emitted (len : ℕ) (rs : List Bytes) : List Fragment :=
  (recordsFrom len rs).flatMap Message.pieces

@[simp] theorem emitted_nil (len : ℕ) : emitted len [] = [] := rfl

theorem emitted_cons (len : ℕ) (r : Bytes) (rs : List Bytes) :
    emitted len (r :: rs) =
    fragments true len r ++ emitted (stopFrom len (fragments true len r)) rs :=
  rfl

@[simp] theorem recordsFrom_content (len : ℕ) (rs : List Bytes) :
    (recordsFrom len rs).map Message.content = rs := by
  induction rs generalizing len with
  | nil => rfl
  | cons r rs ih =>
    rw [recordsFrom, List.map_cons, ih]
    rfl

/-- Fragments as they follow one another in a file of `len` bytes. -/
def Laid : ℕ → List Fragment → Prop
  | _, [] => True
  | len, f :: fs =>
    f.tag = headerPos len ∧ f.payload.length ≤ avail f.tag ∧ Laid (Fragment.stop f) fs

theorem Laid.append {len : ℕ} {fs gs : List Fragment} (hf : Laid len fs)
    (hg : Laid (stopFrom len fs) gs) : Laid len (fs ++ gs) := by
  induction fs generalizing len with
  | nil => exact hg
  | cons f fs ih =>
    obtain ⟨htag, hroom, hrest⟩ := hf
    exact ⟨htag, hroom, ih hrest hg⟩

theorem Laid.le_stopFrom {len : ℕ} {fs : List Fragment} (h : Laid len fs) :
    len ≤ stopFrom len fs := by
  induction fs generalizing len with
  | nil => exact le_rfl
  | cons f fs ih =>
    obtain ⟨htag, -, hrest⟩ := h
    have hle := le_headerPos len
    have hstop := ih hrest
    unfold Fragment.stop at hstop
    rw [stopFrom_cons]
    unfold Fragment.stop
    omega

theorem Laid.le_tag {len : ℕ} {fs : List Fragment} (h : Laid len fs) {f : Fragment}
    (hf : f ∈ fs) : len ≤ f.tag := by
  induction fs generalizing len with
  | nil => cases hf
  | cons g fs ih =>
    obtain ⟨htag, -, hrest⟩ := h
    have hle := le_headerPos len
    rcases List.mem_cons.mp hf with rfl | hf
    · omega
    · have hstop := ih hrest hf
      unfold Fragment.stop at hstop
      omega

theorem Laid.stop_le {len : ℕ} {fs : List Fragment} (h : Laid len fs) {f : Fragment}
    (hf : f ∈ fs) : Fragment.stop f ≤ stopFrom len fs := by
  induction fs generalizing len with
  | nil => cases hf
  | cons g fs ih =>
    obtain ⟨-, -, hrest⟩ := h
    rcases List.mem_cons.mp hf with rfl | hf
    · exact hrest.le_stopFrom
    · exact ih hrest hf

theorem laid_fragments (begin : Bool) (len : ℕ) (left : Bytes) :
    Laid len (fragments begin len left) := by
  fun_induction fragments begin len left with
  | case1 begin len left pos h => exact ⟨rfl, h, trivial⟩
  | case2 begin len left pos h ih =>
    have htake : (left.take (avail pos)).length = avail pos := by
      rw [List.length_take]
      omega
    refine ⟨rfl, htake.le, ?_⟩
    unfold Fragment.stop
    rwa [htake]

theorem laid_emitted (len : ℕ) (rs : List Bytes) : Laid len (emitted len rs) := by
  induction rs generalizing len with
  | nil => trivial
  | cons r rs ih =>
    rw [emitted_cons]
    exact (laid_fragments true len r).append (ih _)

/-- The bytes behind the first `len` bytes of the file; a trailer without room for a header is
zero. -/
def bytesFrom : ℕ → List Fragment → Bytes
  | _, [] => []
  | len, f :: fs =>
    List.replicate (f.tag - len) 0 ++ Fragment.bytes f ++ bytesFrom (Fragment.stop f) fs

theorem length_bytesFrom_singleton {content : Bytes} {f : Fragment}
    (htag : f.tag = headerPos content.length) :
    (content ++ bytesFrom content.length [f]).length = Fragment.stop f := by
  have hle := le_headerPos content.length
  simp only [bytesFrom, List.append_nil, List.length_append, List.length_replicate,
    Fragment.bytes_length, Fragment.stop]
  omega

theorem drop_bytesFrom {content : Bytes} {f : Fragment} (htag : f.tag = headerPos content.length)
    (fs : List Fragment) :
    (content ++ bytesFrom content.length (f :: fs)).drop f.tag =
      Fragment.bytes f ++ bytesFrom (Fragment.stop f) fs := by
  have hle := le_headerPos content.length
  have hlength : (content ++ List.replicate (f.tag - content.length) 0).length = f.tag := by
    rw [List.length_append, List.length_replicate]
    omega
  rw [bytesFrom, List.append_assoc, ← List.append_assoc]
  exact List.drop_left' hlength

def layout (rs : List Bytes) : Bytes := bytesFrom 0 (emitted 0 rs)

theorem bytesFrom_append (len : ℕ) (fs gs : List Fragment) :
    bytesFrom len (fs ++ gs) = bytesFrom len fs ++ bytesFrom (stopFrom len fs) gs := by
  induction fs generalizing len with
  | nil => rfl
  | cons f fs ih => simp [bytesFrom, ih]

theorem bytesFrom_cons (len : ℕ) (f : Fragment) (fs : List Fragment) :
    bytesFrom len (f :: fs) = bytesFrom len [f] ++ bytesFrom (Fragment.stop f) fs :=
  bytesFrom_append len [f] fs

theorem Laid.length {len : ℕ} {fs : List Fragment} (h : Laid len fs) :
    len + (bytesFrom len fs).length = stopFrom len fs := by
  induction fs generalizing len with
  | nil => rfl
  | cons f fs ih =>
    obtain ⟨htag, -, hrest⟩ := h
    have hle := le_headerPos len
    rw [stopFrom_cons, ← ih hrest, bytesFrom, List.length_append, List.length_append,
      List.length_replicate, Fragment.bytes_length, Fragment.stop]
    omega

theorem length_layout (rs : List Bytes) : (layout rs).length = stopFrom 0 (emitted 0 rs) := by
  rw [← (laid_emitted 0 rs).length, Nat.zero_add]
  rfl

end Ibdb.Log
