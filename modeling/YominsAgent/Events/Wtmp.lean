import YominsAgent.Events.Bruteforce
import YominsAgent.Go.Map
import YominsAgent.Go.Utf8
import YominsAgent.Lib.Run

/- Logins and logouts from `wtmp` (`internal/events/auth/wtmp.go` and `runWtmp`): records of 384
   bytes, read in polls from where the last poll has stopped.

   The cursor is a byte offset in the state directory. Nothing says to which file it belongs, and 0
   stands for no cursor as well.

   Correspondence (Go ↔ Lean):
     `utmpRecord`                       ↔ `UtmpRecord`, its bytes `UtmpRecord.encode`
     `checkNewIP`                       ↔ `checkNewIP`, with `isPrivateIP` in the configuration
     `runWtmp` before its loop          ↔ `openWtmp`
     one tick of its loop               ↔ `pollWtmp`, `readLoop`
     `loadWtmpCursor`, `saveWtmpCursor` ↔ the field `cursorFile`
     `io.ReadFull`                      ↔ `readFull`

   A file is its number: the inode of an open file is not given to another one. What
   `loadLastIPByUser` finds comes with the start. Byte strings become text in the events. -/
namespace YominsAgent.Events
open Go Lib List

/-! ## Records -/

def utUserProcess : Int := 7
def utDeadProcess : Int := 8
def utmpRecordSize : Nat := 384

/-- 2020-01-01 00:00:00 UTC. -/
def minValidSec : Int := 1577836800

structure ParsedRecord where
  type : Int
  pid : Int
  tty : Bytes
  user : Bytes
  host : Bytes
  timestamp : Int
  deriving DecidableEq, Repr

/-- `binary.LittleEndian`. -/
def leNat (bs : Bytes) : Nat := bs.foldr (fun b n => b.toNat + 256 * n) 0

def leInt (bs : Bytes) : Int :=
  if 2 * leNat bs < 256 ^ bs.length then leNat bs else (leNat bs : Int) - 256 ^ bs.length

def field (data : Bytes) (offset size : Nat) : Bytes := (data.drop offset).take size

def nullTerminated (b : Bytes) : Bytes := b.takeWhile (· ≠ 0)

/-- Decodes a record; the reading of the clock is for one without a plausible time. -/
def parseRecord (now : Int) (data : Bytes) : Option ParsedRecord :=
  if data.length ≠ utmpRecordSize then none
  else
    let sec := leInt (field data 340 4)
    some {
      type := leInt (field data 0 2)
      pid := leInt (field data 4 4)
      tty := nullTerminated (field data 8 32)
      user := nullTerminated (field data 44 32)
      host := nullTerminated (field data 76 256)
      timestamp :=
        if minValidSec ≤ sec then sec * second + leInt (field data 344 4) * 1000 else now }

/-! ## The bytes of a record -/

/-- A field of `n` bytes. -/
abbrev Block (n : Nat) := { b : Bytes // b.length = n }

/-- `utmpRecord`: what the fields of a record hold. -/
structure UtmpRecord where
  type : Int16
  pad : Block 2
  pid : Int32
  line : Block 32
  id : Block 4
  user : Block 32
  host : Block 256
  exit : Block 4
  session : Int32
  tvSec : Int32
  tvUsec : Int32
  addr : Block 16
  unused : Block 20

def leBytes : Nat → Int → Bytes
  | 0, _ => []
  | n + 1, v => UInt8.ofNat (v % 256).toNat :: leBytes n (v / 256)

/-- The record as it stands in the file, without gaps. -/
def UtmpRecord.encode (r : UtmpRecord) : Bytes :=
  leBytes 2 r.type.toInt ++ (r.pad.1 ++ (leBytes 4 r.pid.toInt ++ (r.line.1 ++ (r.id.1 ++
    (r.user.1 ++ (r.host.1 ++ (r.exit.1 ++ (leBytes 4 r.session.toInt ++
      (leBytes 4 r.tvSec.toInt ++ (leBytes 4 r.tvUsec.toInt ++
        (r.addr.1 ++ r.unused.1)))))))))))

/-- The field holds a string: all of it, or up to a NUL, with anything behind. -/
def HoldsString (b s : Bytes) : Prop := 0 ∉ s ∧ (b = s ∨ ∃ junk, b = s ++ 0 :: junk)

@[simp] theorem length_leBytes (n : Nat) (v : Int) : (leBytes n v).length = n := by
  induction n generalizing v <;> simp [leBytes, *]

theorem toNat_byte (v : Int) : (UInt8.ofNat (v % 256).toNat).toNat = (v % 256).toNat :=
  toNat_ofNat_byte (by omega)

theorem leInt_type (x : Int16) : leInt (leBytes 2 x.toInt) = x.toInt := by
  have hlo := x.le_toInt
  have hhi := x.toInt_lt
  simp only [leInt, leNat, leBytes, foldr, toNat_byte, length_cons, length_nil]
  split <;> omega

theorem leInt_word (x : Int32) : leInt (leBytes 4 x.toInt) = x.toInt := by
  have hlo := x.le_toInt
  have hhi := x.toInt_lt
  simp only [leInt, leNat, leBytes, foldr, toNat_byte, length_cons, length_nil]
  split <;> omega

theorem nullTerminated_of_holds {b s : Bytes} (h : HoldsString b s) : nullTerminated b = s := by
  obtain ⟨hs, hb⟩ := h
  have hkept : ∀ c ∈ s, decide (c ≠ 0) = true := fun c hc =>
    decide_eq_true fun he => hs (he ▸ hc)
  rcases hb with rfl | ⟨junk, rfl⟩
  · have htake := @takeWhile_append_of_pos _ _ _ [] hkept
    simpa [nullTerminated] using htake
  · rw [nullTerminated, takeWhile_append_of_pos hkept]
    simp

section Field
variable {a b : Bytes} {k n : Nat}

theorem field_skip (h : a.length ≤ k) : field (a ++ b) k n = field b (k - a.length) n := by
  rw [field, field, drop_append, drop_of_length_le h, nil_append]

theorem field_here (h : a.length = n) : field (a ++ b) 0 n = a := take_left' h

end Field

/-- Decoding inverts the layout: whatever the other fields hold, and whatever stands behind
the strings, the values of the record come back. An input of another length is refused. -/
theorem parseRecord_encode (now : Int) (r : UtmpRecord) {tty user host : Bytes}
    (htty : HoldsString r.line.1 tty) (huser : HoldsString r.user.1 user)
    (hhost : HoldsString r.host.1 host) (hsec : minValidSec ≤ r.tvSec.toInt) :
    parseRecord now r.encode = some {
      type := r.type.toInt, pid := r.pid.toInt, tty, user, host
      timestamp := r.tvSec.toInt * second + r.tvUsec.toInt * 1000 } ∧
    ∀ data, data.length ≠ utmpRecordSize → parseRecord now data = none := by
  have hlen : r.encode.length = utmpRecordSize := by
    simp [UtmpRecord.encode, r.pad.2, r.line.2, r.id.2, r.user.2, r.host.2, r.exit.2, r.addr.2,
      r.unused.2, utmpRecordSize]
  refine ⟨?_, fun data h => if_pos h⟩
  rw [parseRecord, if_neg (not_not.mpr hlen)]
  simp (disch := simp [r.pad.2, r.line.2, r.id.2, r.user.2, r.host.2, r.exit.2]) only
    [UtmpRecord.encode, field_skip, field_here, length_leBytes, r.pad.2, r.line.2, r.id.2, r.user.2,
      r.host.2, r.exit.2, Nat.reduceSub, leInt_type, leInt_word, nullTerminated_of_holds htty,
      nullTerminated_of_holds huser, nullTerminated_of_holds hhost, if_pos hsec]

/-- A login from a host whose name fills its field. -/
def loginRecord : UtmpRecord where
  type := 7
  pad := ⟨[1, 2], rfl⟩
  pid := -5
  line := ⟨112 :: 0 :: List.replicate 30 9, rfl⟩
  id := ⟨List.replicate 4 9, rfl⟩
  user := ⟨List.replicate 32 0, rfl⟩
  host := ⟨List.replicate 256 104, List.length_replicate⟩
  exit := ⟨List.replicate 4 9, rfl⟩
  session := 3
  tvSec := 1577836800
  tvUsec := 250000
  addr := ⟨List.replicate 16 9, rfl⟩
  unused := ⟨List.replicate 20 9, rfl⟩

theorem parseRecord_encode_login : parseRecord 0 loginRecord.encode = some {
    type := 7, pid := -5, tty := [112], user := [], host := List.replicate 256 104
    timestamp := 1577836800250000000 } :=
  (parseRecord_encode 0 loginRecord ⟨by decide, .inr ⟨_, rfl⟩⟩ ⟨by decide, .inr ⟨_, rfl⟩⟩
    ⟨by decide +kernel, .inl rfl⟩ (by decide)).1

/-! ## Events -/

structure WtmpConfig extends AuthConfig where
  ignorePrivateIP : Bool
  isPrivateIP : Bytes → Bool

/-- What the clock and `uuid.New` give while one record is handled. -/
structure Reading where
  parsedAt : Int
  now : Int
  id : Str
  newIPID : Str

section
variable (cfg : WtmpConfig)

def makeLoginEvent (id : Str) (r : ParsedRecord) : Event :=
  { id, timestamp := r.timestamp, type := .authLoginSuccess, category := .accessEvent
    severity := .info, host := cfg.host, agent := cfg.agent
    actor := some { user := toText r.user }
    context := some { tty := toText r.tty, remoteIP := toText r.host }
    tags := ["auth".toList, "login".toList] }

def makeLogoutEvent (id : Str) (r : ParsedRecord) : Event :=
  { id, timestamp := r.timestamp, type := .authLogout, category := .accessEvent
    severity := .info, host := cfg.host, agent := cfg.agent
    actor := some { user := toText r.user }
    context := some { tty := toText r.tty }
    tags := ["auth".toList, "logout".toList] }

def newIPEvent (id : Str) (now : Int) (r : ParsedRecord) (prev : Bytes) : Event :=
  { id, timestamp := now, type := .authLoginNewIP, category := .threatActivity
    severity := .warning, confidence := some .medium, host := cfg.host, agent := cfg.agent
    actor := some { user := toText r.user, ip := toText r.host }
    context := some { remoteIP := toText prev, reason := "new_ip".toList }
    tags := ["auth".toList, "new_ip".toList] }

/-- The event of a login from an address the user did not come from last, and the last
addresses after it. -/
def checkNewIP (ips : Map Bytes Bytes) (id : Str) (now : Int) (r : ParsedRecord) :
    Option Event × Map Bytes Bytes :=
  if r.host = [] then (none, ips)
  else if cfg.ignorePrivateIP && cfg.isPrivateIP r.host then (none, ips)
  else
    (match ips.lookup r.user with
      | none => none
      | some prev => if prev = r.host then none else some (newIPEvent cfg id now r prev),
     ips.insert r.user r.host)

def recordEvents (ips : Map Bytes Bytes) (x : Reading) (buf : Bytes) :
    List Event × Map Bytes Bytes :=
  match parseRecord x.parsedAt buf with
  | none => ([], ips)
  | some r =>
    if r.type = utUserProcess then
      -- login records always carry a user name
      if r.user = [] then ([], ips)
      else
        let (ev, ips) := checkNewIP cfg ips x.newIPID x.now r
        (makeLoginEvent cfg x.id r :: ev.toList, ips)
    else if r.type = utDeadProcess then
      -- logout records have no user, by convention of the kernel
      if r.tty = [] then ([], ips) else ([makeLogoutEvent cfg x.id r], ips)
    else ([], ips)

end

/-- A login record with a user, or a logout record with a terminal. -/
def isSession (buf : Bytes) : Bool :=
  (parseRecord 0 buf).any fun r =>
    (r.type = utUserProcess && r.user ≠ []) || (r.type = utDeadProcess && r.tty ≠ [])

theorem length_of_isSession {buf : Bytes} (h : isSession buf = true) :
    buf.length = utmpRecordSize := by
  by_contra hne
  simp [isSession, parseRecord, hne] at h

theorem recordEvents_ne_nil (cfg : WtmpConfig) (ips : Map Bytes Bytes) (x : Reading) {buf : Bytes}
    (h : isSession buf = true) : (recordEvents cfg ips x buf).1 ≠ [] := by
  have hlen := length_of_isSession h
  simp only [isSession, parseRecord, hlen, ne_eq, not_true, if_false, Option.any_some,
    Bool.or_eq_true, Bool.and_eq_true, decide_eq_true_eq] at h
  simp only [recordEvents, parseRecord, hlen, ne_eq, not_true, if_false]
  rcases h with ⟨htype, huser⟩ | ⟨htype, htty⟩
  · rw [if_pos htype, if_neg huser]
    exact cons_ne_nil _ _
  · have hne : ¬ utDeadProcess = utUserProcess := by decide
    rw [if_neg (htype ▸ hne), if_pos htype, if_neg htty]
    exact cons_ne_nil _ _

/-! ## Reading -/

structure WtmpReader where
  /-- the open file, `prevInode` -/
  inode : Nat
  /-- the file offset -/
  pos : Nat
  cursor : Int
  lastIPByUser : Map Bytes Bytes

/-- `io.ReadFull` of a record: fewer bytes, and an error, at the end of the file. -/
def readFull (data : Bytes) (pos : Nat) : Bytes := field data pos utmpRecordSize

section
variable (cfg : WtmpConfig) (readings : Nat → Reading)

/-- Reads records until one is not complete. Each is noted with its place. -/
def readLoop (data : Bytes) : Nat → WtmpReader → List (Nat × List Event) →
    WtmpReader × List (Nat × List Event)
  | 0, w, out => (w, out)
  | fuel + 1, w, out =>
    let buf := readFull data w.pos
    if buf.length = utmpRecordSize then
      let (evs, ips) := recordEvents cfg w.lastIPByUser (readings out.length) buf
      readLoop data fuel
        { w with pos := w.pos + buf.length, cursor := w.cursor + buf.length, lastIPByUser := ips }
        (out ++ [(w.pos, evs)])
    else ({ w with pos := w.pos + buf.length }, out)

/-- As many turns as the file has records, and the one that ends the loop. -/
def readAll (data : Bytes) (w : WtmpReader) : WtmpReader × List (Nat × List Event) :=
  readLoop cfg readings data (data.length / utmpRecordSize + 1) w []

end

/-! ## The agent and the files -/

abbrev Place := Nat × Nat

structure WtmpState where
  rotated : List Bytes := []
  /-- the file at the path -/
  wtmp : Bytes
  cursorFile : Option Int := none
  agent : Option WtmpReader := none
  /-- the records that have been read, with the events made of them -/
  out : List (Place × List Event) := []
  /-- the first start has ended -/
  began : Bool := false
  /-- the records appended since then -/
  owed : List Place := []

def WtmpState.path (s : WtmpState) : Nat := s.rotated.length

def WtmpState.content (s : WtmpState) (inode : Nat) : Bytes := (s.rotated ++ [s.wtmp]).getD inode []

inductive WtmpLabel where
  | append (record : Bytes)
  | rotate
  | start (ips : Map Bytes Bytes)
  | poll (readings : Nat → Reading)
  | stop

/-- `runWtmp` up to its loop: it goes on at the cursor, or at the end without one. A
cursor it cannot seek to is kept. -/
def openWtmp (s : WtmpState) (ips : Map Bytes Bytes) : WtmpReader :=
  let cursor := if s.cursorFile.getD 0 = 0 then (s.wtmp.length : Int) else s.cursorFile.getD 0
  { inode := s.path, cursor, lastIPByUser := ips
    pos := if 0 ≤ cursor then cursor.toNat else s.wtmp.length }

/-- A new file at the path is read from its start. -/
def reopen (s : WtmpState) (w : WtmpReader) : WtmpReader :=
  if s.path ≠ w.inode then { w with inode := s.path, pos := 0, cursor := 0 } else w

section
variable (cfg : WtmpConfig)

/-- One tick. -/
def pollWtmp (s : WtmpState) (w : WtmpReader) (readings : Nat → Reading) : WtmpState :=
  let w := reopen s w
  let (w, read) := readAll cfg readings (s.content w.inode) w
  { s with
    agent := some w
    cursorFile := some w.cursor
    out := s.out ++ read.map fun x => ((w.inode, x.1), x.2) }

def stepWtmp (s : WtmpState) : WtmpLabel → Option WtmpState
  | .append record =>
    if isSession record then
      some { s with
        wtmp := s.wtmp ++ record
        owed := if s.began then s.owed ++ [(s.path, s.wtmp.length)] else s.owed }
    else none
  | .rotate => some { s with rotated := s.rotated ++ [s.wtmp], wtmp := [] }
  | .start ips =>
    match s.agent with
    | some _ => none
    | none => some { s with agent := some (openWtmp s ips), began := true }
  | .poll readings => s.agent.map fun w => pollWtmp cfg s w readings
  | .stop =>
    match s.agent with
    | some _ => some { s with agent := none }
    | none => none

end

/-! ## What a tick reads -/

theorem utmpRecordSize_pos : 0 < utmpRecordSize := by decide

theorem length_readFull (data : Bytes) (pos : Nat) :
    (readFull data pos).length = min utmpRecordSize (data.length - pos) := by
  rw [readFull, field, length_take, length_drop]

/-- The number of records that are complete from `pos` on. -/
def recordsFrom (data : Bytes) (pos : Nat) : Nat := (data.length - pos) / utmpRecordSize

/-- The loop notes every record that is complete from the file offset on once, in order, with
the events made of it. What is left after them is read as well; the cursor counts the
records only. -/
theorem readLoop_spec (cfg : WtmpConfig) (readings : Nat → Reading) (data : Bytes) (fuel : Nat) :
    ∀ (w : WtmpReader) (out : List (Nat × List Event)), recordsFrom data w.pos < fuel →
      ∃ ips read, readLoop cfg readings data fuel w out =
        ({ w with
           pos := max w.pos data.length
           cursor := w.cursor + (utmpRecordSize * recordsFrom data w.pos : Nat)
           lastIPByUser := ips },
          out ++ read) ∧
        read.map Prod.fst =
          (List.range (recordsFrom data w.pos)).map (w.pos + utmpRecordSize * ·) ∧
        ∀ x ∈ read, ∃ ips r, x.2 = (recordEvents cfg ips r (readFull data x.1)).1 := by
  induction fuel with
  | zero => exact fun w out h => absurd h (Nat.not_lt_zero _)
  | succ fuel ih =>
    intro w out hfuel
    have hlen := length_readFull data w.pos
    simp only [recordsFrom, utmpRecordSize] at hfuel hlen ih ⊢
    by_cases hfull : 384 ≤ data.length - w.pos
    · have hbuf : (readFull data w.pos).length = 384 := by omega
      have hcount : (data.length - w.pos) / 384 = (data.length - (w.pos + 384)) / 384 + 1 := by
        omega
      simp only [readLoop, utmpRecordSize, hbuf, if_true]
      cases hev : recordEvents cfg w.lastIPByUser (readings out.length) (readFull data w.pos) with
      | mk evs ips =>
        obtain ⟨ips', read, hloop, hplaces, hevents⟩ := ih
          { w with pos := w.pos + 384, cursor := w.cursor + (384 : Nat), lastIPByUser := ips }
          (out ++ [(w.pos, evs)]) (by simp only; omega)
        refine ⟨ips', (w.pos, evs) :: read, ?_, ?_, fun x hx => ?_⟩
        · rw [hloop]
          have hmax : max (w.pos + 384) data.length = max w.pos data.length := by omega
          have hcursor : w.cursor + (384 : Nat) +
              (384 * ((data.length - (w.pos + 384)) / 384) : Nat) =
              w.cursor + (384 * ((data.length - w.pos) / 384) : Nat) := by
            omega
          simp only [hmax, hcursor, append_assoc, singleton_append]
        · rw [map_cons, hplaces, hcount, range_succ_eq_map, map_cons, map_map]
          refine congrArg₂ cons (by simp) (map_congr_left fun i _ => ?_)
          simp only [Function.comp_apply]
          omega
        · rcases mem_cons.mp hx with rfl | hx
          · exact ⟨w.lastIPByUser, readings out.length, by rw [hev]⟩
          · exact hevents x hx
    · -- the end of the file, perhaps in the middle of a record
      have hshort : ¬ (readFull data w.pos).length = utmpRecordSize := by
        rw [utmpRecordSize]
        omega
      have hnone : (data.length - w.pos) / 384 = 0 := by omega
      have hpos : w.pos + (readFull data w.pos).length = max w.pos data.length := by omega
      simp only [readLoop]
      rw [if_neg hshort, hpos, hnone]
      simp

/-- The place of a record of the file at the path that is still to be read from `pos` on. -/
def Unread (data : Bytes) (pos o : Nat) : Prop :=
  utmpRecordSize ∣ o ∧ pos ≤ o ∧ o < data.length

theorem readAll_spec (cfg : WtmpConfig) (readings : Nat → Reading) {data : Bytes} {w : WtmpReader}
    (hdata : utmpRecordSize ∣ data.length) (hpos : utmpRecordSize ∣ w.pos)
    (hcursor : w.cursor = w.pos) :
    ∃ ips read, readAll cfg readings data w =
      ({ w with
         pos := max w.pos data.length, cursor := (max w.pos data.length : Nat)
         lastIPByUser := ips }, read) ∧
      (read.map Prod.fst).Nodup ∧ (∀ o, o ∈ read.map Prod.fst ↔ Unread data w.pos o) ∧
      ∀ x ∈ read, ∃ ips r, x.2 = (recordEvents cfg ips r (readFull data x.1)).1 := by
  obtain ⟨n, hn⟩ := hdata
  obtain ⟨k, hk⟩ := hpos
  obtain ⟨ips, read, hloop, hplaces, hevents⟩ :=
    readLoop_spec cfg readings data (data.length / utmpRecordSize + 1) w []
      (Nat.lt_succ_of_le (Nat.div_le_div_right (Nat.sub_le _ _)))
  have hcount : recordsFrom data w.pos = n - k := by
    rw [recordsFrom, hn, hk, ← Nat.mul_sub, Nat.mul_div_cancel_left _ utmpRecordSize_pos]
  rw [hcount] at hloop hplaces
  simp only [utmpRecordSize] at hn hk hloop hplaces ⊢
  refine ⟨ips, read, ?_, ?_, fun o => ?_, hevents⟩
  · have hend : w.cursor + (384 * (n - k) : Nat) = (max w.pos data.length : Nat) := by
      omega
    rw [readAll, utmpRecordSize, hloop, hend, nil_append]
  · rw [hplaces]
    have hinj : ∀ a b : Nat, w.pos + 384 * a = w.pos + 384 * b → a = b := by
      omega
    exact List.Nodup.map (fun a b h => hinj a b h) nodup_range
  · rw [hplaces, mem_map, Unread, utmpRecordSize]
    constructor
    · rintro ⟨i, hi, rfl⟩
      rw [mem_range] at hi
      exact ⟨⟨k + i, by omega⟩, by omega, by omega⟩
    · rintro ⟨⟨i, rfl⟩, hle, hlt⟩
      exact ⟨i - k, mem_range.mpr (by omega), by omega⟩

end YominsAgent.Events
