import Ibdb.Storage.DiskRun

/-! Positions over a run of any size: what 32 bits of position and an `int` of length let the
log promise. -/
namespace Ibdb.Storage
open Base Log

/-! What a read can return at all. -/

theorem getMessage_length_lt {env : Env} {file message : Bytes} {offset : ℕ}
    (h : RandomAccessFileHandle.getMessage env file offset = .ok (.ok message)) :
    message.length < 2 ^ 31 - 1 := by
  unfold RandomAccessFileHandle.getMessage at h
  simp only at h
  generalize decodeFixed32 env.kLittleEndian (pread file 4 (offset + 8)) = n at h
  have hlt := toInt32_lt n
  split_ifs at h with hheader hthrow hundef hpayload
  · simp at h
  · simp at h
  · have hid : pread file (toInt32 n).toNat (offset + 12) = message := by simpa using h
    subst hid
    have hne : toInt32 n ≠ 2 ^ 31 - 1 := by
      intro heq
      rw [heq] at hthrow
      exact hthrow (by decide)
    omega

theorem scanMessages_length_lt {env : Env} {content message : Bytes} {offset fuel k pos : ℕ}
    (h : Table.scanMessages env content offset fuel k pos = some (.ok (some message))) :
    message.length < 2 ^ 31 - 1 := by
  induction fuel generalizing k pos with
  | zero => simp [Table.scanMessages] at h
  | succ fuel ih =>
    rw [Table.scanMessages] at h
    cases hoff : RandomAccessFileHandle.getMessageOffset env content pos with
    | error status => simp [hoff] at h
    | ok messageOffset =>
      simp only [hoff] at h
      split_ifs at h with hassert hfound hpast
      · simp at h
      · cases hget : RandomAccessFileHandle.getMessage env content pos with
        | error fault => simp [hget] at h
        | ok result =>
          cases result with
          | error status => simp [hget] at h
          | ok found =>
            have hid : found = message := by simpa [hget] using h
            subst hid
            exact getMessage_length_lt hget
      · have hid : [] = message := by simpa using h
        subst hid
        norm_num
      · cases hsize : RandomAccessFileHandle.getMessageSize env content pos with
        | error status => simp [hsize] at h
        | ok size => exact ih (by simpa only [hsize] using h)

/-- What `FindMessage` returns is what its loop found in the file it opened. -/
theorem scanMessages_of_findMessage {env : Env} {offset start pos : ℕ} {file : Bytes}
    {result : Option Bytes} {s : TableState}
    (h : (Table.findMessage env offset start pos file s).1 = .ok result) :
    ∃ rf, (Table.reader env
        (Table.logDir env s.table.tableManifest.name ++ ascii "/" ++ file) s).1 = .ok rf ∧
      Table.scanMessages env (rf.content s.fs) offset (Table.scanBound offset start) start pos =
        some (.ok result) := by
  obtain ⟨_, _, hget, h⟩ := Exec.bind_eq_ok.mp (Prod.ext h rfl)
  cases hget
  obtain ⟨rf, _, hreader, h⟩ := Exec.bind_eq_ok.mp h
  obtain ⟨found, _, hfound, h⟩ := Exec.bind_eq_ok.mp h
  rw [Exec.lift_apply, Prod.mk.injEq] at hfound
  have hscan := (Option.some_get _).symm.trans (congrArg some hfound.1)
  refine ⟨rf, congrArg Prod.fst hreader, ?_⟩
  cases found with
  | none =>
    have heq : none = result := by simpa using congrArg Prod.fst h
    subst heq
    exact hscan
  | some message =>
    have hlt := scanMessages_length_lt hscan
    obtain ⟨slice, _, hslice, h⟩ := Exec.bind_eq_ok.mp h
    rw [Exec.lift_apply, Slice.ofBuffer_of_lt (hlt.trans (by norm_num))] at hslice
    simp only [Prod.mk.injEq, Except.ok.injEq, Exec.pure_apply] at hslice h
    rw [← h.1, ← hslice.1]
    exact hscan

/-- `FindMessage` returns no message whose length and terminator do not fit an `int`. -/
theorem findMessage_length_lt {env : Env} {offset start pos : ℕ} {file message : Bytes}
    {s : TableState} (h : (Table.findMessage env offset start pos file s).1 = .ok (some message)) :
    message.length < 2 ^ 31 - 1 := by
  obtain ⟨rf, -, hscan⟩ := scanMessages_of_findMessage h
  exact scanMessages_length_lt hscan

/-! The positions that the search steps through. -/

/-- One round of `FindMessage` that goes on to the next record: the offset it expects and the
position it reads at, before and after. -/
def ScanStep (env : Env) (content : Bytes) (offset : ℕ) (a b : ℕ × ℕ) : Prop :=
  RandomAccessFileHandle.getMessageOffset env content a.2 = .ok a.1 ∧ a.1 < offset ∧
    ∃ size, RandomAccessFileHandle.getMessageSize env content a.2 = .ok size ∧
      b = (a.1 + 1, (a.2 + 12 + size) % 2 ^ 32)

theorem scanMessages_step {env : Env} {content : Bytes} {offset fuel : ℕ} {a b : ℕ × ℕ}
    (h : ScanStep env content offset a b) :
    Table.scanMessages env content offset (fuel + 1) a.1 a.2 =
      Table.scanMessages env content offset fuel b.1 b.2 := by
  obtain ⟨hoff, hlt, size, hsize, rfl⟩ := h
  have hne : ¬ offset = a.1 := by omega
  have hgt : ¬ a.1 > offset := by omega
  rw [Table.scanMessages, hoff]
  simp only [ne_eq, not_true_eq_false, if_false, hne, hgt, hsize]

theorem scanStep_position {env : Env} {ms : List Bytes} {i : ℕ} {a b : ℕ × ℕ}
    (hms : ∀ m ∈ ms, m.length < 2 ^ 31) (hi : i < ms.length) (hpos : position ms i < 2 ^ 32)
    (ha : a.1 ≤ i ∧ a.2 = position ms a.1) (h : ScanStep env (logBytes ms) i a b) :
    b.1 ≤ i ∧ b.2 = position ms b.1 := by
  obtain ⟨-, hlt, size, hsize, rfl⟩ := h
  have hk : a.1 < ms.length := by omega
  obtain ⟨rest, hrest⟩ := drop_position hk
  have hcontent : (logBytes ms).drop a.2 =
      (record a.1 ms[a.1] ++ rest).take (12 + ms[a.1].length + rest.length) := by
    rw [ha.2, hrest, List.take_of_length_le (by simp)]
  have hm := hms _ (List.getElem_mem hk)
  rw [getMessageSize_record env hcontent (by omega), if_pos (by omega)] at hsize
  have heq : ms[a.1].length = size := by simpa using hsize
  subst heq
  have hnext : position ms (a.1 + 1) ≤ position ms i := position_mono ms hlt
  have hsucc := position_succ hk
  refine ⟨hlt, ?_⟩
  simp only [ha.2]
  rw [← hsucc, Nat.mod_eq_of_lt (by omega)]

/-! What true positions come to over a run. -/

def puts (ms : List Bytes) : List DiskOp := ms.map (DiskOp.putDisk .ok)

def afterPuts (env : Env) (s₀ : TableState) (ms : List Bytes) (j : ℕ) : Option TableState :=
  run (DiskOp.step env) (puts (ms.take j)) s₀

/-- Record `j` starts where the log ended before it was appended. -/
def TrueOffset (env : Env) (s₀ : TableState) (ms : List Bytes) (j pos : ℕ) : Prop :=
  ∃ t, afterPuts env s₀ ms j = some t ∧ pos = t.logContents.length

/-- Every recorded position and every position a search steps through is a true offset, and
every message is found once the log is written out. -/
structure PositionsTrue (env : Env) (s₀ : TableState) (ms : List Bytes) : Prop where
  returns : ∀ j ≤ ms.length, ∃ t, afterPuts env s₀ ms j = some t
  currentPos : ∀ j < ms.length, ∀ t, afterPuts env s₀ ms j = some t →
    TrueOffset env s₀ ms j t.table.wf.currentPos
  index : ∀ s, afterPuts env s₀ ms ms.length = some s → ∀ file j pos,
    Indexed s.table.offsetPosMap file j pos → TrueOffset env s₀ ms j pos
  steps : ∀ s, afterPuts env s₀ ms ms.length = some s → ∀ i < ms.length, ∀ k pos,
    Relation.ReflTransGen (ScanStep env (s.drain s.pending.length).flushed i)
      (Table.findOffsetPosition s.table.offsetPosMap i).2 (k, pos) →
    TrueOffset env s₀ ms k pos
  found : ∀ s, afterPuts env s₀ ms ms.length = some s → ∀ (i : ℕ) (h : i < ms.length),
    let found := Table.findOffsetPosition s.table.offsetPosMap i
    (Table.findMessage env i found.2.1 found.2.2 found.1 (s.drain s.pending.length)).1 =
      .ok (some ms[i])

section PositionsTrue
variable {env : Env} {tableName : Bytes} {schema : List Field} {s₀ : TableState} {ms : List Bytes}

theorem messages_puts (ms : List Bytes) : DiskOp.messages (puts ms) = ms := by
  simp [DiskOp.messages, puts, List.filterMap_map, Function.comp_def, DiskOp.message?]

theorem allSucceed_puts (ms : List Bytes) : DiskOp.AllSucceed (puts ms) := by
  intro pre op post h
  have hmem : op ∈ puts ms := by simp [h]
  obtain ⟨m, -, rfl⟩ := List.mem_map.mp hmem
  exact ⟨Complete.ok m, fun _ => rfl⟩

theorem LogInv.of_afterPuts (hcreated : Created env tableName schema [] s₀)
    (hms : ∀ m ∈ ms, m.length < 2 ^ 31) {j : ℕ} {t : TableState}
    (ht : afterPuts env s₀ ms j = some t) : LogInv env tableName (ms.take j) t := by
  have hinv := LogInv.of_run hcreated ht (allSucceed_puts _)
  have hshort : ∀ m ∈ ms.take j, m.length < 2 ^ 32 := fun m hm =>
    (hms m (List.mem_of_mem_take hm)).trans (by norm_num)
  rwa [messages_puts, map_stored_of_lt hshort] at hinv

theorem exists_afterPuts (hcreated : Created env tableName schema [] s₀)
    (hms : ∀ m ∈ ms, m.length < 2 ^ 31) (j : ℕ) : ∃ t, afterPuts env s₀ ms j = some t := by
  refine exists_run_of_succeed hcreated (allSucceed_puts _) ?_
  intro m hm
  rw [messages_puts] at hm
  have hlt := hms m (List.mem_of_mem_take hm)
  omega

theorem trueOffset_iff (hcreated : Created env tableName schema [] s₀)
    (hms : ∀ m ∈ ms, m.length < 2 ^ 31) {j pos : ℕ} (hj : j ≤ ms.length) :
    TrueOffset env s₀ ms j pos ↔ pos = position ms j := by
  obtain ⟨t, ht⟩ := exists_afterPuts hcreated hms j
  have hinv := LogInv.of_afterPuts hcreated hms ht
  rw [position_eq_length_take hj, ← hinv.contents]
  constructor
  · rintro ⟨u, hu, rfl⟩
    rw [ht] at hu
    rw [Option.some.inj hu]
  · intro heq
    subst heq
    exact ⟨t, ht, rfl⟩

/-- A found message has a length below the limit of a read, and a true position fits in the
counter it was read from. -/
theorem bounds_of_positionsTrue (hcreated : Created env tableName schema [] s₀)
    (h : PositionsTrue env s₀ ms) :
    (∀ m ∈ ms, m.length < 2 ^ 31 - 1) ∧ ∀ j < ms.length, position ms j < 2 ^ 32 := by
  have hlen : ∀ m ∈ ms, m.length < 2 ^ 31 - 1 := by
    intro m hm
    obtain ⟨i, hi, rfl⟩ := List.mem_iff_getElem.mp hm
    obtain ⟨s, hs⟩ := h.returns ms.length le_rfl
    exact findMessage_length_lt (h.found s hs i hi)
  have hms : ∀ m ∈ ms, m.length < 2 ^ 31 := fun m hm => (hlen m hm).trans (by norm_num)
  refine ⟨hlen, fun j hj => ?_⟩
  obtain ⟨t, ht⟩ := h.returns j hj.le
  have hpos := (trueOffset_iff hcreated hms hj.le).mp (h.currentPos j hj t ht)
  rw [← hpos, (LogInv.of_afterPuts hcreated hms ht).currentPos]
  exact Nat.mod_lt _ (by norm_num)

theorem positionsTrue_of_bounds (hcreated : Created env tableName schema [] s₀)
    (hlen : ∀ m ∈ ms, m.length < 2 ^ 31 - 1) (hpos : ∀ j < ms.length, position ms j < 2 ^ 32) :
    PositionsTrue env s₀ ms := by
  have hms : ∀ m ∈ ms, m.length < 2 ^ 31 := fun m hm => (hlen m hm).trans (by norm_num)
  have hfinal : ∀ s, afterPuts env s₀ ms ms.length = some s → LogInv env tableName ms s := by
    intro s hs
    have hinv := LogInv.of_afterPuts hcreated hms hs
    rwa [List.take_length] at hinv
  have hindexed : ∀ s, afterPuts env s₀ ms ms.length = some s → ∀ file j pos,
      Indexed s.table.offsetPosMap file j pos → j < ms.length ∧ pos = position ms j := by
    intro s hs file j pos hp
    obtain ⟨-, hj, -, rfl⟩ := (hfinal s hs).index.indexed_iff.mp hp
    exact ⟨hj.1, Nat.mod_eq_of_lt (hpos j hj.1)⟩
  refine ⟨fun j _ => exists_afterPuts hcreated hms j, ?_, ?_, ?_, ?_⟩
  · intro j hj t ht
    rw [trueOffset_iff hcreated hms hj.le, (LogInv.of_afterPuts hcreated hms ht).currentPos,
      ← position_eq_length_take hj.le, Nat.mod_eq_of_lt (hpos j hj)]
  · intro s hs file j pos hp
    obtain ⟨hj, hp⟩ := hindexed s hs file j pos hp
    exact (trueOffset_iff hcreated hms hj.le).mpr hp
  · intro s hs i hi k pos hsteps
    have hinv := hfinal s hs
    have hne : ms ≠ [] := List.ne_nil_of_length_pos (by omega)
    obtain ⟨start, p, hfound, hstart, hle, -⟩ := findOffsetPosition_spec hinv.index hne i
    have hcontent : (s.drain s.pending.length).flushed = logBytes ms := by
      simp [← hinv.contents, TableState.logContents]
    rw [hfound, hcontent] at hsteps
    generalize hb : (k, pos) = b at hsteps
    have hreach : b.1 ≤ i ∧ b.2 = position ms b.1 := by
      clear hb
      induction hsteps with
      | refl => exact ⟨hle, (hindexed s hs _ _ _ hstart).2⟩
      | tail _ hstep ih => exact scanStep_position hms hi (hpos i hi) ih hstep
    subst hb
    exact (trueOffset_iff hcreated hms (hreach.1.trans hi.le)).mpr hreach.2
  · intro s hs i hi
    have hinv := hfinal s hs
    have hne : ms ≠ [] := List.ne_nil_of_length_pos (by omega)
    have hcontent : (s.drain s.pending.length).flushed = logBytes ms := by
      simp [← hinv.contents, TableState.logContents]
    have hread := readRecord_of_short (f := (logBytes ms).length) hi
      (hlen _ (List.getElem_mem hi))
    rw [if_pos (position_le_length ms (i + 1))] at hread
    have hmin : position ms (min i ms.length) < 2 ^ 32 := by
      rw [Nat.min_eq_left hi.le]
      exact hpos i hi
    have hfind := (hinv.drain s.pending.length).find hne hmin hms
    rw [hcontent, hread] at hfind
    exact congrArg Prod.fst hfind

/-- Positions are true, and messages found, exactly as long as every record starts within 32
bits and every message is one that can be read. -/
theorem positionsTrue_iff (hcreated : Created env tableName schema [] s₀) (ms : List Bytes) :
    PositionsTrue env s₀ ms ↔
      (∀ m ∈ ms, m.length < 2 ^ 31 - 1) ∧
        ∀ j < ms.length, ((ms.take j).map fun m => 12 + m.length).sum < 2 ^ 32 := by
  have hsum : ∀ j < ms.length, ((ms.take j).map fun m => 12 + m.length).sum = position ms j := by
    intro j hj
    rw [position_eq_length_take hj.le, logBytes_length]
  constructor
  · intro h
    obtain ⟨hlen, hpos⟩ := bounds_of_positionsTrue hcreated h
    exact ⟨hlen, fun j hj => (hsum j hj).trans_lt (hpos j hj)⟩
  · rintro ⟨hlen, hpos⟩
    exact positionsTrue_of_bounds hcreated hlen fun j hj => (hsum j hj) ▸ hpos j hj

theorem positionsTrue_iff_three :
    PositionsTrue Env.default (emptyTable Env.default (ascii "t") [])
        [ascii "l", ascii "m", ascii "n"] ↔
      (∀ m ∈ [ascii "l", ascii "m", ascii "n"], m.length < 2 ^ 31 - 1) ∧ ∀ j < 3,
        (([ascii "l", ascii "m", ascii "n"].take j).map fun m => 12 + m.length).sum < 2 ^ 32 :=
  positionsTrue_iff (created_emptyTable _ _ _ rfl) _

private theorem not_positionsTrue_replicate {m : Bytes} (hm : m.length = 2 ^ 30) :
    ¬ PositionsTrue Env.default (emptyTable Env.default (ascii "t") []) (List.replicate 5 m) := by
  intro h
  have hpos := (bounds_of_positionsTrue (created_emptyTable _ _ _ rfl) h).2 4 (by simp)
  rw [position_eq_length_take (by simp), logBytes_length] at hpos
  simp only [List.take_replicate, List.map_replicate, List.sum_replicate, hm, smul_eq_mul] at hpos
  omega

/-- Five messages of a gigabyte: the fifth record starts at `2 ^ 32 + 48`. -/
theorem not_positionsTrue_five_gigabytes :
    ¬ PositionsTrue Env.default (emptyTable Env.default (ascii "t") [])
      (List.replicate 5 (List.replicate (2 ^ 30) 97)) :=
  not_positionsTrue_replicate List.length_replicate

end PositionsTrue
end Ibdb.Storage
