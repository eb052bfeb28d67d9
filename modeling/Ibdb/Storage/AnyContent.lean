import Ibdb.Storage.Positions

/-! Reads of a log file that may hold any bytes. -/
namespace Ibdb.Storage
open Base Log

/-- The length field of a record at the position is complete, and says `n`. -/
def Declares (content : Bytes) (pos n : ℕ) : Prop :=
  ((content.drop (pos + 8)).take 4).length = 4 ∧
    LittleEndian.decode ((content.drop (pos + 8)).take 4) = n

instance (content : Bytes) (pos n : ℕ) : Decidable (Declares content pos n) :=
  inferInstanceAs (Decidable (_ ∧ _))

/-- The payload of a record at the position, whose length the field declares, is in the file. -/
def Holds (content : Bytes) (pos : ℕ) (message : Bytes) : Prop :=
  Declares content pos message.length ∧ pos + 12 + message.length ≤ content.length ∧
    (content.drop (pos + 12)).take message.length = message

/-- A read gives a message exactly when the record is complete, and an `IOError` otherwise. -/
structure LengthChecked (env : Env) (content : Bytes) (pos : ℕ) : Prop where
  ok : ∀ message, RandomAccessFileHandle.getMessage env content pos = .ok (.ok message) ↔
    Holds content pos message ∧ message.length < 2 ^ 31
  error : (∀ message, message.length < 2 ^ 31 → ¬ Holds content pos message) →
    ∃ text, RandomAccessFileHandle.getMessage env content pos = .ok (.error (.ioError text))

section GetMessage
variable {env : Env} {content : Bytes} {pos n : ℕ}

theorem Declares.lt (h : Declares content pos n) : n < 2 ^ 32 := by
  obtain ⟨hlength, rfl⟩ := h
  have hlt := LittleEndian.decode_lt ((content.drop (pos + 8)).take 4)
  rw [hlength] at hlt
  exact hlt

theorem Declares.le_length (h : Declares content pos n) : pos + 12 ≤ content.length := by
  have hlength := h.1
  rw [List.length_take, List.length_drop] at hlength
  omega

theorem Declares.eq {k : ℕ} (h : Declares content pos n) (h' : Declares content pos k) : n = k :=
  h.2.symm.trans h'.2

theorem decodeFixed32_of_declares (h : Declares content pos n) :
    decodeFixed32 env.kLittleEndian (pread content 4 (pos + 8)) = n := by
  obtain ⟨hlength, rfl⟩ := h
  unfold pread
  rw [decodeFixed32_eq _ hlength.ge, List.take_take, Nat.min_self]

theorem getMessage_of_short (h : ∀ n, ¬ Declares content pos n) :
    RandomAccessFileHandle.getMessage env content pos =
      .ok (.error (.ioError (ascii "read_size is not equal message_length"))) := by
  have hlength : (pread content 4 (pos + 8)).length ≠ 4 := fun hlength => h _ ⟨hlength, rfl⟩
  unfold RandomAccessFileHandle.getMessage
  exact if_pos hlength

theorem getMessage_of_lt (h : Declares content pos n) (hn : n < 2 ^ 31 - 1) :
    RandomAccessFileHandle.getMessage env content pos =
      if content.length < pos + 12 + n then
        .ok (.error (.ioError (ascii "read_size is not equal message_size")))
      else .ok (.ok ((content.drop (pos + 12)).take n)) := by
  have hlength : (pread content 4 (pos + 8)).length = 4 := h.1
  have hroom := h.le_length
  have hint : toInt32 n = n := toInt32_of_lt (by omega)
  have hsum : ((n : ℤ) + 1).bmod (2 ^ 32) = n + 1 := by
    rw [Int.bmod_eq_of_le] <;> omega
  unfold RandomAccessFileHandle.getMessage
  simp only [hlength, ne_eq, not_true_eq_false, if_false, decodeFixed32_of_declares h, hint, hsum,
    Int.toNat_natCast]
  rw [if_neg (by omega), if_neg (by omega)]
  have hpayload : (pread content n (pos + 12)).length = min n (content.length - (pos + 12)) := by
    rw [pread, List.length_take, List.length_drop]
  rw [hpayload]
  by_cases hshort : content.length < pos + 12 + n
  · rw [if_pos hshort, if_pos (by omega)]
  · rw [if_neg hshort, if_neg (by omega)]
    rfl

/-- From `2 ^ 31 - 1` on the buffer cannot be had, but for `2 ^ 32 - 1`, where it is written in
front of its start. -/
theorem getMessage_of_le (h : Declares content pos n) (hn : 2 ^ 31 - 1 ≤ n) :
    ∃ fault, RandomAccessFileHandle.getMessage env content pos = .error fault ∧
      (fault = .badAlloc ∨ fault = .undefined) := by
  have hlength : (pread content 4 (pos + 8)).length = 4 := h.1
  have hlt := h.lt
  have hint : toInt32 n = if n < 2 ^ 31 then (n : ℤ) else n - 2 ^ 32 := by
    unfold toInt32
    rw [Int.bmod_def]
    split_ifs <;> omega
  have hsum : (toInt32 n + 1).bmod (2 ^ 32) =
      if n < 2 ^ 31 then -(2 ^ 31 : ℤ) else n - 2 ^ 32 + 1 := by
    rw [hint, Int.bmod_def]
    split_ifs <;> omega
  unfold RandomAccessFileHandle.getMessage
  simp only [hlength, ne_eq, not_true_eq_false, if_false, decodeFixed32_of_declares h, hsum]
  by_cases hneg : (if n < 2 ^ 31 then -(2 ^ 31 : ℤ) else n - 2 ^ 32 + 1) < 0
  · rw [if_pos hneg]
    exact ⟨_, rfl, Or.inl rfl⟩
  · have hlast : toInt32 n = -1 := by
      rw [hint]
      split_ifs at hneg ⊢ <;> omega
    rw [if_neg hneg, if_pos hlast]
    exact ⟨_, rfl, Or.inr rfl⟩

theorem Holds.eq {message : Bytes} (h : Holds content pos message)
    (hn : Declares content pos n) : message = (content.drop (pos + 12)).take n := by
  rw [← h.1.eq hn]
  exact h.2.2.symm

theorem holds_take (h : Declares content pos n) (hroom : pos + 12 + n ≤ content.length) :
    Holds content pos ((content.drop (pos + 12)).take n) := by
  have hlength : ((content.drop (pos + 12)).take n).length = n := by
    rw [List.length_take, List.length_drop]
    omega
  unfold Holds
  rw [hlength]
  exact ⟨h, hroom, rfl⟩

theorem LengthChecked.lt (h : LengthChecked env content pos) (hn : Declares content pos n) :
    n < 2 ^ 31 - 1 := by
  by_contra hle
  obtain ⟨fault, hfault, -⟩ := @getMessage_of_le env content pos n hn (Nat.not_lt.mp hle)
  have hnone : ∀ message, message.length < 2 ^ 31 → ¬ Holds content pos message := by
    intro message hlt hmessage
    have hget := (h.ok message).mpr ⟨hmessage, hlt⟩
    rw [hfault] at hget
    cases hget
  obtain ⟨text, htext⟩ := h.error hnone
  rw [hfault] at htext
  cases htext

theorem lengthChecked_of_declares (hn : Declares content pos n) (hlt : n < 2 ^ 31 - 1) :
    LengthChecked env content pos := by
  have hget := @getMessage_of_lt env content pos n hn hlt
  by_cases hshort : content.length < pos + 12 + n
  · rw [if_pos hshort] at hget
    have hnone : ∀ message, ¬ Holds content pos message := by
      intro message hmessage
      have hroom := hmessage.2.1
      rw [hmessage.1.eq hn] at hroom
      omega
    constructor
    · intro message
      rw [hget]
      exact ⟨nofun, fun hmessage => absurd hmessage.1 (hnone message)⟩
    · intro _
      exact ⟨_, hget⟩
  · rw [if_neg hshort] at hget
    have hholds := holds_take hn (Nat.not_lt.mp hshort)
    have hlength := hholds.1.eq hn
    constructor
    · intro message
      rw [hget]
      constructor
      · intro heq
        cases heq
        exact ⟨hholds, by omega⟩
      · intro hmessage
        rw [hmessage.1.eq hn]
    · intro hnone
      exact absurd hholds (hnone _ (by omega))

theorem lengthChecked_of_lt (h : ∀ n, Declares content pos n → n < 2 ^ 31 - 1) :
    LengthChecked env content pos := by
  by_cases hdeclares : ∃ n, Declares content pos n
  · obtain ⟨n, hn⟩ := hdeclares
    exact lengthChecked_of_declares hn (h n hn)
  · have hget := @getMessage_of_short env content pos fun n hn => hdeclares ⟨n, hn⟩
    constructor
    · intro message
      rw [hget]
      exact ⟨nofun, fun hmessage => absurd ⟨_, hmessage.1.1⟩ hdeclares⟩
    · intro _
      exact ⟨_, hget⟩

def badHeader : Bytes := List.replicate 8 0 ++ List.replicate 4 255

end GetMessage

/-! The search for a record. -/

/-- The search comes to a header with the offset it looks for. -/
def Reaches (env : Env) (content : Bytes) (offset start pos p : ℕ) : Prop :=
  Relation.ReflTransGen (ScanStep env content offset) (start, pos) (offset, p) ∧
    RandomAccessFileHandle.getMessageOffset env content p = .ok offset

/-- The search comes to a header with another offset than the one it has counted to. -/
def Misses (env : Env) (content : Bytes) (offset start pos : ℕ) : Prop :=
  ∃ k p messageOffset, Relation.ReflTransGen (ScanStep env content offset) (start, pos) (k, p) ∧
    RandomAccessFileHandle.getMessageOffset env content p = .ok messageOffset ∧ k ≠ messageOffset

/-- What the search makes of the record it has come to. -/
def foundMessage : Except Fault (Except Status Bytes) → Except Fault (Option Bytes)
  | .error fault => .error fault
  | .ok (.error _) => .ok none
  | .ok (.ok message) => .ok (some message)

theorem not_returns (α : Type) (fault : Fault) :
    ¬ ∃ a : α, (Except.error fault : Except Fault α) = .ok a := by
  rintro ⟨a, ha⟩
  cases ha

section Search
variable {env : Env} {content : Bytes} {offset start pos fuel : ℕ}

theorem foundMessage_returns_iff {p : ℕ} :
    (∃ r, foundMessage (RandomAccessFileHandle.getMessage env content p) = .ok r) ↔
      ∀ n, Declares content p n → n < 2 ^ 31 - 1 := by
  constructor
  · intro hw n hn
    obtain ⟨r, hr⟩ := hw
    by_contra hle
    obtain ⟨fault, hfault, -⟩ := @getMessage_of_le env content p n hn (Nat.not_lt.mp hle)
    rw [hfault] at hr
    cases hr
  · intro h
    have hchecked := @lengthChecked_of_lt env content p h
    by_cases hholds : ∃ message, message.length < 2 ^ 31 ∧ Holds content p message
    · obtain ⟨message, hlt, hmessage⟩ := hholds
      rw [(hchecked.ok message).mpr ⟨hmessage, hlt⟩]
      exact ⟨some message, rfl⟩
    · obtain ⟨text, htext⟩ := hchecked.error fun message hlt hmessage =>
        hholds ⟨message, hlt, hmessage⟩
      rw [htext]
      exact ⟨none, rfl⟩

theorem scanMessages_found (h : RandomAccessFileHandle.getMessageOffset env content pos = .ok offset) :
    Table.scanMessages env content offset (fuel + 1) offset pos =
      some (foundMessage (RandomAccessFileHandle.getMessage env content pos)) := by
  rw [Table.scanMessages, h]
  simp only [ne_eq, not_true_eq_false, if_false, if_true]
  rcases RandomAccessFileHandle.getMessage env content pos with fault | status | message <;> rfl

/-- Each step takes a round, and as many are left as the offset is away. -/
theorem scanMessages_steps {a b : ℕ × ℕ}
    (h : Relation.ReflTransGen (ScanStep env content offset) a b)
    (hfuel : Table.scanBound offset a.1 ≤ fuel) :
    ∃ left, Table.scanBound offset b.1 ≤ left + 1 ∧
      Table.scanMessages env content offset fuel a.1 a.2 =
        Table.scanMessages env content offset (left + 1) b.1 b.2 := by
  induction h using Relation.ReflTransGen.head_induction_on generalizing fuel with
  | refl =>
    have hpos : fuel ≠ 0 := by
      unfold Table.scanBound at hfuel
      omega
    obtain ⟨left, rfl⟩ := Nat.exists_eq_succ_of_ne_zero hpos
    exact ⟨left, hfuel, rfl⟩
  | head hstep _ ih =>
    have hlt := hstep.2.1
    have hpos : fuel ≠ 0 := by
      unfold Table.scanBound at hfuel
      omega
    obtain ⟨fuel, rfl⟩ := Nat.exists_eq_succ_of_ne_zero hpos
    rw [scanMessages_step hstep]
    apply ih
    obtain ⟨-, -, size, -, rfl⟩ := hstep
    unfold Table.scanBound at hfuel ⊢
    simp only
    omega

theorem Reaches.scanMessages {p : ℕ} (h : Reaches env content offset start pos p)
    (hfuel : Table.scanBound offset start ≤ fuel) :
    Table.scanMessages env content offset fuel start pos =
      some (foundMessage (RandomAccessFileHandle.getMessage env content p)) := by
  obtain ⟨hsteps, hheader⟩ := h
  obtain ⟨left, -, hscan⟩ := scanMessages_steps hsteps hfuel
  rw [hscan]
  exact scanMessages_found hheader

theorem Misses.scanMessages (h : Misses env content offset start pos)
    (hfuel : Table.scanBound offset start ≤ fuel) :
    Table.scanMessages env content offset fuel start pos = some (.error .assertFailed) := by
  obtain ⟨k, p, messageOffset, hsteps, hheader, hne⟩ := h
  obtain ⟨left, -, hscan⟩ := scanMessages_steps hsteps hfuel
  rw [hscan, Table.scanMessages, hheader]
  exact if_pos hne

/-- The search ends with nothing, with the assertion on a wrong header, or with a record of the
offset. The break past the offset is never taken. -/
theorem scanMessages_cases {result : Except Fault (Option Bytes)} (hle : start ≤ offset)
    (h : Table.scanMessages env content offset fuel start pos = some result) :
    result = .ok none ∨ (result = .error .assertFailed ∧ Misses env content offset start pos) ∨
      ∃ p, Reaches env content offset start pos p ∧
        result = foundMessage (RandomAccessFileHandle.getMessage env content p) := by
  induction fuel generalizing start pos with
  | zero => cases h
  | succ fuel ih =>
    cases hheader : RandomAccessFileHandle.getMessageOffset env content pos with
    | error status =>
      rw [Table.scanMessages, hheader] at h
      exact Or.inl (Option.some.inj h).symm
    | ok messageOffset =>
      by_cases hstart : start = messageOffset
      · subst hstart
        rcases hle.eq_or_lt with rfl | hlt
        · rw [scanMessages_found hheader] at h
          exact Or.inr (Or.inr ⟨pos, ⟨.refl, hheader⟩, (Option.some.inj h).symm⟩)
        · cases hsize : RandomAccessFileHandle.getMessageSize env content pos with
          | error status =>
            have hne : ¬ offset = start := by omega
            have hgt : ¬ start > offset := by omega
            rw [Table.scanMessages, hheader] at h
            simp only [ne_eq, not_true_eq_false, if_false, hne, hgt, hsize] at h
            exact Or.inl (Option.some.inj h).symm
          | ok size =>
            have hstep : ScanStep env content offset (start, pos)
                (start + 1, (pos + 12 + size) % 2 ^ 32) := ⟨hheader, hlt, size, hsize, rfl⟩
            rw [show Table.scanMessages env content offset (fuel + 1) start pos = _ from
              scanMessages_step hstep] at h
            rcases ih hlt h with hr | ⟨hr, k, p, messageOffset, hsteps, hlast, hne⟩ |
              ⟨p, ⟨hsteps, hlast⟩, hr⟩
            · exact Or.inl hr
            · exact Or.inr (Or.inl ⟨hr, k, p, messageOffset, .head hstep hsteps, hlast, hne⟩)
            · exact Or.inr (Or.inr ⟨p, ⟨.head hstep hsteps, hlast⟩, hr⟩)
      · rw [Table.scanMessages, hheader] at h
        simp only [ne_eq, hstart, not_false_eq_true, if_true] at h
        exact Or.inr (Or.inl ⟨(Option.some.inj h).symm, start, pos, messageOffset, .refl, hheader,
          hstart⟩)

theorem findMessage_eq {file : Bytes} {s : TableState} {rf : RandomAccessFileHandle}
    (hopen : (Table.reader env
      (Table.logDir env s.table.tableManifest.name ++ ascii "/" ++ file) s).1 = .ok rf)
    {result : Except Fault (Option Bytes)}
    (hscan : Table.scanMessages env (rf.content s.fs) offset (Table.scanBound offset start) start
      pos = some result) :
    (Table.findMessage env offset start pos file s).1 = result := by
  rw [Table.findMessage, Exec.bind_ok (Exec.get_apply s)]
  dsimp only
  rw [Exec.bind_ok (Prod.ext hopen rfl)]
  have hfound : (Table.scanMessages env (rf.content s.fs) offset (Table.scanBound offset start)
      start pos).get (Table.scanMessages_isSome env (rf.content s.fs) offset le_rfl pos) =
      result := Option.get_of_eq_some _ hscan
  simp only [hfound]
  rcases result with fault | _ | message
  · rfl
  · rfl
  · have hlt := scanMessages_length_lt hscan
    rw [Exec.bind_ok (Exec.lift_apply _ _)]
    simp only [Slice.ofBuffer_of_lt (hlt.trans (by norm_num))]
    rfl

/-- A call of `FindMessage` goes round its loop as often as there are offsets to count, ends with
a result or the assertion, and returns the record under the last header it read, which has the
offset asked for. -/
structure SearchEnds (env : Env) (offset start pos : ℕ) (file : Bytes) (s : TableState)
    (rf : RandomAccessFileHandle) : Prop where
  rounds : (Table.scanMessages env (rf.content s.fs) offset (offset - start + 1) start pos).isSome
  ends : ∀ fault, (Table.findMessage env offset start pos file s).1 = .error fault →
    fault = .assertFailed
  found : ∀ message, (Table.findMessage env offset start pos file s).1 = .ok (some message) →
    ∃ p, Reaches env (rf.content s.fs) offset start pos p ∧
      RandomAccessFileHandle.getMessage env (rf.content s.fs) p = .ok (.ok message)

/-- Whatever the file holds, the search ends as it should exactly when the record it comes to, if
there is one, does not declare a length from `2 ^ 31 - 1` on. -/
theorem searchEnds_iff {file : Bytes} {s : TableState} {rf : RandomAccessFileHandle}
    (hopen : (Table.reader env (Table.logDir env s.table.tableManifest.name ++ ascii "/" ++ file) s).1 =
      .ok rf) (hle : start ≤ offset) :
    SearchEnds env offset start pos file s rf ↔
      ∀ p, Reaches env (rf.content s.fs) offset start pos p →
        ∀ n, Declares (rf.content s.fs) p n → n < 2 ^ 31 - 1 := by
  constructor
  · intro h p hp n hn
    by_contra hlong
    obtain ⟨fault, hfault, hkind⟩ :=
      @getMessage_of_le env (rf.content s.fs) p n hn (Nat.not_lt.mp hlong)
    have hscan := hp.scanMessages le_rfl
    rw [hfault] at hscan
    have hassert := h.ends fault (findMessage_eq hopen hscan)
    rcases hkind with rfl | rfl <;> cases hassert
  · intro h
    have hbound : Table.scanBound offset start ≤ offset - start + 1 := le_rfl
    have hsome := Table.scanMessages_isSome env (rf.content s.fs) offset hbound pos
    obtain ⟨result, hscan⟩ := Option.isSome_iff_exists.mp
      (Table.scanMessages_isSome env (rf.content s.fs) offset
        (le_refl (Table.scanBound offset start)) pos)
    have hfind := findMessage_eq hopen hscan
    have hcases := scanMessages_cases hle hscan
    constructor
    · exact hsome
    · intro fault hfault
      rw [hfind] at hfault
      rcases hcases with rfl | ⟨rfl, -⟩ | ⟨p, hp, rfl⟩
      · cases hfault
      · exact (Except.error.inj hfault).symm
      · obtain ⟨r, hr⟩ := (@foundMessage_returns_iff env (rf.content s.fs) p).mpr (h p hp)
        rw [hr] at hfault
        cases hfault
    · intro message hmessage
      rw [hfind] at hmessage
      rcases hcases with rfl | ⟨rfl, -⟩ | ⟨p, hp, rfl⟩
      · cases hmessage
      · cases hmessage
      · have hread : RandomAccessFileHandle.getMessage env (rf.content s.fs) p =
            .ok (.ok message) := by
          rcases hget : RandomAccessFileHandle.getMessage env (rf.content s.fs) p with
            fault | status | found <;> rw [hget] at hmessage <;> cases hmessage
          rfl
        exact ⟨p, hp, hread⟩

end Search

/-- A table without columns over a log file that holds the bytes. -/
def overBytes (content : Bytes) : TableState := tableOver Env.default (ascii "t") [] content

theorem reader_overBytes (content : Bytes) :
    (Table.reader Env.default
        (Table.logDir Env.default (overBytes content).table.tableManifest.name ++ ascii "/" ++
          Table.logName) (overBytes content)).1 =
      .ok ⟨logPath Env.default (ascii "t")⟩ := by
  change (Table.reader Env.default (logFile Env.default (ascii "t")) (overBytes content)).1 = _
  unfold Table.reader
  rw [Exec.bind_ok (Exec.get_apply _)]
  simp [overBytes, tableOver, Table.initial, Exec.bind_apply, RandomAccessFileHandle.new,
    FileSystem.append, logPath]
  rfl

theorem content_overBytes (content : Bytes) :
    RandomAccessFileHandle.content ⟨logPath Env.default (ascii "t")⟩ (overBytes content).fs =
      content := by
  simp [RandomAccessFileHandle.content, overBytes, tableOver, FileSystem.append]

theorem searchEnds_iff_third_record :
    let content := logBytes [ascii "l", ascii "m", ascii "n"]
    SearchEnds Env.default 2 0 0 Table.logName (overBytes content)
        ⟨logPath Env.default (ascii "t")⟩ ↔
      ∀ p, Reaches Env.default (RandomAccessFileHandle.content ⟨logPath Env.default (ascii "t")⟩
          (overBytes content).fs) 2 0 0 p →
        ∀ n, Declares (RandomAccessFileHandle.content ⟨logPath Env.default (ascii "t")⟩
          (overBytes content).fs) p n → n < 2 ^ 31 - 1 :=
  searchEnds_iff (reader_overBytes (logBytes [ascii "l", ascii "m", ascii "n"])) (by decide)

/-- Over the header with a bad length the search neither returns nor asserts. -/
theorem not_searchEnds_badHeader :
    (Table.findMessage Env.default 0 0 0 Table.logName (overBytes badHeader)).1 =
        .error .undefined ∧
      ¬ SearchEnds Env.default 0 0 0 Table.logName (overBytes badHeader)
        ⟨logPath Env.default (ascii "t")⟩ := by
  have hscan : Table.scanMessages Env.default (RandomAccessFileHandle.content
      ⟨logPath Env.default (ascii "t")⟩ (overBytes badHeader).fs) 0 (Table.scanBound 0 0) 0 0 =
      some (.error .undefined) := by
    rw [content_overBytes]
    decide +kernel
  have hfind : (Table.findMessage Env.default 0 0 0 Table.logName (overBytes badHeader)).1 =
      .error .undefined := findMessage_eq (reader_overBytes badHeader) hscan
  constructor
  · exact hfind
  · intro h
    have hassert := h.ends .undefined hfind
    cases hassert

end Ibdb.Storage
