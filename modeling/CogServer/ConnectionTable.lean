import CogServer.TelnetLines
import CogServer.TopEval
import Mathlib.Data.List.Sort
import Mathlib.Data.List.TakeDrop
import Mathlib.Data.Nat.Digits.Lemmas

/-! The table of the open connections, which `top` shows, and the command that closes one of them. -/
namespace CogServer

/-- `%*d` of a number that is not negative. -/
def padded (width n : ℕ) : Bytes := List.replicate (width - (sizeText n).length) blank ++ sizeText n

theorem sizeText_digits (n : ℕ) : ∀ c ∈ sizeText n, isDigit c = true := by
  unfold sizeText
  split
  · exact List.all_eq_true.mp (by decide)
  · exact decimal_digits n

theorem digitsValue_sizeText (n : ℕ) : digitsValue (sizeText n) = n := by
  unfold sizeText
  split
  · next h => rw [h]; rfl
  · exact digitsValue_decimal n

theorem sizeText_ne_nil (n : ℕ) : sizeText n ≠ [] := by
  unfold sizeText
  split
  · decide
  · next h => exact decimal_ne_nil (Nat.pos_of_ne_zero h)

theorem padded_oneLine (width n : ℕ) : newline ∉ padded width n := by
  intro h
  rcases List.mem_append.mp h with h | h
  · exact absurd (List.eq_of_mem_replicate h) (by decide)
  · exact absurd (sizeText_digits n _ h) (by decide)

/-- A number that fits fills its column. -/
theorem length_padded {width n : ℕ} (h : n < 10 ^ width) (hw : 0 < width) :
    (padded width n).length = width := by
  have hle : (sizeText n).length ≤ width := by
    unfold sizeText
    split
    · exact hw
    · rw [decimal, List.length_map, List.length_reverse]
      exact (Nat.digits_length_le_iff (by decide) n).mpr h
  rw [padded, List.length_append, List.length_replicate]
  omega

/-- `atoi` reads a padded number up to the end of the line. -/
theorem atoi_padded {width n : ℕ} (h : n < 2 ^ 31) :
    atoi (blank :: (padded width n ++ [newline])) = n := by
  have hblanks : ∀ c ∈ blank :: List.replicate (width - (sizeText n).length) blank, isSpace c = true := by
    intro c hc
    rcases List.mem_cons.mp hc with rfl | hc
    · rfl
    · rw [List.eq_of_mem_replicate hc]
      rfl
  obtain ⟨d, ds, hd⟩ := List.exists_cons_of_ne_nil (sizeText_ne_nil n)
  have hdigit : isDigit d = true := sizeText_digits n d (by rw [hd]; exact List.mem_cons_self)
  have hstart : (blank :: (padded width n ++ [newline])).dropWhile isSpace = sizeText n ++ [newline] := by
    rw [padded, List.append_assoc, ← List.cons_append, List.dropWhile_append_of_pos hblanks, hd,
      List.cons_append, List.dropWhile_cons_of_neg (by rw [isSpace_of_isDigit hdigit]; decide)]
  have hsign : scanSign (sizeText n ++ [newline]) = (false, sizeText n ++ [newline]) := by
    have h1 : d ≠ 45 := ne_of_isDigit hdigit (by decide)
    have h2 : d ≠ 43 := ne_of_isDigit hdigit (by decide)
    simp [hd, scanSign, h1, h2]
  have htake : (sizeText n ++ [newline]).takeWhile isDigit = sizeText n := by
    rw [List.takeWhile_append_of_pos (sizeText_digits n), List.takeWhile_cons_of_neg (by decide),
      List.append_nil]
  have hstrtol : strtol (blank :: (padded width n ++ [newline])) = n := by
    simp only [strtol, hstart, hsign, htake, digitsValue_sizeText, Bool.false_eq_true, ↓reduceIte]
    omega
  rw [atoi, hstrtol]
  exact Int.bmod_eq_of_le (by omega) (by omega)

/-- `_status` -/
inductive StatusText
  | start | block | iwait | bar | dtor | quing | close | down
  deriving DecidableEq, Repr

def StatusText.text : StatusText → Bytes
  | .start => ascii "start"
  | .block => ascii "block"
  | .iwait => ascii "iwait"
  | .bar => ascii "-bar-"
  | .dtor => ascii "dtor "
  | .quing => ascii "quing"
  | .close => ascii "close"
  | .down => ascii "down "

/-- `_name` -/
def ShellKind.name : ShellKind → Bytes
  | .scheme => ascii " scm"
  | .json => ascii "json"
  | .sexpr => ascii "sexp"
  | .mcp => ascii "mcp"
  | .top => ascii "top "
  | .python => ascii "pyth"

/-- What the table shows of a shell. -/
structure ShellRow where
  kind : ShellKind
  queued : ℕ
  evalDone : Bool
  pending : ℕ
  deriving DecidableEq, Repr

/-- What the table shows of a connection, and whether `Exit` has closed it. The thread id is zero
until the handler thread runs. -/
structure Connection where
  startTime : ℤ
  tid : ℕ
  status : StatusText
  lineCount : ℕ
  lastActivity : ℤ
  doFrameIo : Bool
  isHttp : Bool
  isMcp : Bool
  useCount : ℕ
  shell : Option ShellRow
  isDown : Bool
  deriving DecidableEq, Repr

/-- A date in UTC as `strftime` writes it, with the format `%d %b %H:%M:%S`. -/
structure DateFormat where
  text : ℤ → Bytes
  length_text : ∀ t, (text t).length = 15
  oneLine : ∀ t, newline ∉ text t

namespace Connection

def exit (c : Connection) : Connection := { c with status := .down, isDown := true }

/-- `ServerSocket::connection_stats`, which fits its buffer. -/
def serverStats (date : DateFormat) (c : Connection) : Bytes :=
  date.text c.startTime ++ [blank] ++ padded 8 c.tid ++ [blank] ++ c.status.text ++ [blank] ++
    padded 5 c.lineCount ++ [blank] ++ date.text c.lastActivity ++ [blank] ++
    (if c.doFrameIo then ascii "W" else if c.isHttp then ascii "H" else if c.isMcp then ascii "M"
      else ascii "T")

/-- What `ConsoleSocket::connection_stats` adds for its shell. -/
def shellStats : Option ShellRow → Bytes
  | some r =>
    r.kind.name ++ [blank] ++ padded 2 r.queued ++ [blank] ++
      (if r.evalDone then ascii "F" else ascii "T") ++ [blank] ++ padded 5 r.pending
  | none => ascii "cogs           "

/-- `ConsoleSocket::connection_stats` -/
def stats (date : DateFormat) (c : Connection) : Bytes :=
  c.serverStats date ++ [blank] ++ padded 1 c.useCount ++ [blank] ++ shellStats c.shell

/-- `ConsoleSocket::connection_header` -/
def header : Bytes := ascii "OPEN-DATE        THREAD  STATE NLINE  LAST-ACTIVITY  K" ++ ascii " U SHEL QZ E PENDG"

/-- The comparison by which the table is sorted. -/
def before (a b : Connection) : Bool :=
  if a.startTime = b.startTime then a.tid < b.tid else a.startTime < b.startTime

end Connection

namespace SocketList

/-- The sorted copy of the list. -/
def sorted (socks : List Connection) : List Connection :=
  socks.mergeSort fun a b => !b.before a

/-- The loop that prints the table. -/
def printRows (date : DateFormat) (nlines : ℤ) : ℕ → List Connection → Bytes
  | _, [] => []
  | nprt, ss :: sov =>
    let head := if nprt = 0 then Connection.header ++ [newline] else []
    let nprt := (if nprt = 0 then nprt + 1 else nprt) + 1
    head ++ (ss.stats date ++ [newline]) ++
      if 0 < nlines ∧ nlines < nprt then [] else printRows date nlines nprt sov

/-- `display_stats` -/
def displayStats (date : DateFormat) (nlines : ℤ) (socks : List Connection) : Bytes :=
  printRows date nlines 0 (sorted socks)

/-- `kill` -/
def kill (tid : ℤ) : List Connection → Bool × List Connection
  | [] => (false, [])
  | ss :: socks =>
    if tid = ss.tid then (true, ss.exit :: socks)
    else
      let (rc, rest) := kill tid socks
      (rc, ss :: rest)

/-- `TopEval` on these connections. What comes before the table is `title`. -/
def topHost (date : DateFormat) (title : Bytes) : TopHost (List Connection) where
  displayStats nlines socks := (title ++ displayStats date (nlines - 9) socks, socks)
  kill := kill

/-- The connections that the table shows: with a limit, as many as it says. -/
def shown (nlines : ℤ) (socks : List Connection) : List Connection :=
  (sorted socks).take (if 0 < nlines then nlines.toNat else socks.length)

/-- A row with its newline. -/
def line (date : DateFormat) (c : Connection) : Bytes := c.stats date ++ [newline]

variable {date : DateFormat} {nlines : ℤ} {socks : List Connection}

/-- The rows after the header. The loop goes on only as long as the limit is not passed. -/
theorem printRows_shown {nprt : ℕ} (h1 : 1 ≤ nprt) (h : 0 < nlines → nprt ≤ nlines)
    (sov : List Connection) :
    printRows date nlines nprt sov =
      ((sov.take (if 0 < nlines then (nlines + 1 - nprt).toNat else sov.length)).map (line date)).flatten := by
  induction sov generalizing nprt with
  | nil => simp [printRows]
  | cons ss sov ih =>
    have hnprt : nprt ≠ 0 := by omega
    simp only [printRows, if_neg hnprt, List.nil_append]
    by_cases hlimit : 0 < nlines
    · have hle := h hlimit
      rw [if_pos hlimit]
      by_cases hlast : nlines < (nprt + 1 : ℕ)
      · -- the last row that fits
        have hone : (nlines + 1 - nprt).toNat = 1 := by omega
        rw [if_pos ⟨hlimit, hlast⟩, hone]
        simp [line]
      · obtain ⟨k, hk⟩ : ∃ k, (nlines + 1 - nprt).toNat = k + 1 := ⟨(nlines - nprt).toNat, by omega⟩
        have hk' : (nlines + 1 - (nprt + 1 : ℕ)).toNat = k := by omega
        rw [if_neg (by tauto), ih (by omega) (by omega), if_pos hlimit, hk, hk']
        simp [line]
    · rw [if_neg (by tauto), ih (by omega) (by omega), if_neg hlimit, if_neg hlimit]
      simp [line]

/-- The table: a header if there is any connection, and the rows of those that are shown. -/
theorem displayStats_eq (hne : socks ≠ []) : displayStats date nlines socks =
    Connection.header ++ [newline] ++ ((shown nlines socks).map (line date)).flatten := by
  obtain ⟨ss, sov, hsorted⟩ := List.exists_cons_of_ne_nil (l := sorted socks)
    (fun h => hne (List.length_eq_zero_iff.mp (by rw [← List.length_mergeSort (l := socks), ← sorted, h]; rfl)))
  have hrows : printRows date nlines 1 (ss :: sov) = _ := printRows_shown le_rfl (by omega) _
  have hlength : (ss :: sov).length = socks.length := by
    rw [← hsorted, sorted, List.length_mergeSort]
  rw [displayStats, shown, hsorted]
  -- the header counts as the first row
  have hfirst : printRows date nlines 0 (ss :: sov) =
      Connection.header ++ [newline] ++ printRows date nlines 1 (ss :: sov) := by
    simp [printRows]
  have hcount : (nlines + 1 - (1 : ℕ)).toNat = nlines.toNat := by omega
  rw [hfirst, hrows, hlength, hcount]

/-- A row has no newline. -/
theorem stats_oneLine (date : DateFormat) (c : Connection) : newline ∉ c.stats date := by
  have hstatus : ∀ t : StatusText, newline ∉ t.text := by
    intro t
    cases t <;> decide
  have hname : ∀ k : ShellKind, newline ∉ k.name := by
    intro k
    cases k <;> decide
  have hblank : newline ∉ [blank] := by decide
  have hflag : ∀ b : Bool, newline ∉ (if b then ascii "F" else ascii "T") := by decide
  have hkind : ∀ b h m : Bool, newline ∉ (if b then ascii "W" else if h then ascii "H" else
      if m then ascii "M" else ascii "T") := by decide
  have hserver : newline ∉ c.serverStats date := by
    simp only [Connection.serverStats, List.mem_append, date.oneLine, padded_oneLine, hblank, hstatus, hkind,
      or_self, not_false_eq_true]
  have hshell : newline ∉ Connection.shellStats c.shell := by
    cases c.shell with
    | none => decide
    | some r =>
      simp only [Connection.shellStats, List.mem_append, padded_oneLine, hblank, hname, hflag, or_self,
        not_false_eq_true]
  simp only [Connection.stats, List.mem_append, padded_oneLine, hblank, hserver, hshell, or_self,
    not_false_eq_true]

/-- The lines of the table. -/
theorem splitOn_displayStats (hne : socks ≠ []) : (displayStats date nlines socks).splitOn newline =
    Connection.header :: ((shown nlines socks).map (Connection.stats date) ++ [[]]) := by
  have hrows : ((shown nlines socks).map (line date)).flatten =
      ((shown nlines socks).map (Connection.stats date)).flatMap (· ++ [newline]) := by
    rw [List.flatMap_map]
    rfl
  have hline : ∀ l ∈ (shown nlines socks).map (Connection.stats date), newline ∉ l :=
    List.forall_mem_map.mpr fun c _ => stats_oneLine date c
  have hheader : newline ∉ Connection.header := by decide
  rw [displayStats_eq hne, List.append_assoc, List.singleton_append,
    List.splitOn_append_cons_self_of_not_mem hheader, hrows, Telnet.splitOn_flatMap_lines hline]

/-- The column under the heading `THREAD`. -/
def threadColumn (row : Bytes) : Bytes := (row.drop 16).take 8

theorem threadColumn_stats {c : Connection} (h : c.tid < 10 ^ 8) :
    threadColumn (c.stats date) = padded 8 c.tid := by
  have hlength : (padded 8 c.tid).length = 8 := length_padded h (by decide)
  have hdate := date.length_text c.startTime
  rw [threadColumn, Connection.stats, Connection.serverStats]
  simp only [List.append_assoc]
  rw [← List.append_assoc (date.text c.startTime), List.drop_left' (by rw [List.length_append, hdate]; rfl),
    List.take_left' hlength]

/-- No two handler threads that run have the same id. -/
def DistinctThreads (socks : List Connection) : Prop :=
  socks.Pairwise fun a b => a.tid ≠ 0 → a.tid ≠ b.tid

/-- `kill` closes the connection with this thread, and no other one. -/
theorem kill_eq {n : ℕ} (hn : n ≠ 0) (h : DistinctThreads socks) :
    kill n socks = (socks.any (·.tid = n), socks.map fun c => if c.tid = n then c.exit else c) := by
  induction socks with
  | nil => rfl
  | cons ss socks ih =>
    obtain ⟨hss, hsocks⟩ := List.pairwise_cons.mp h
    rw [kill]
    by_cases hc : ss.tid = n
    · subst hc
      have hothers : socks.map (fun c => if c.tid = ss.tid then c.exit else c) = socks := by
        conv_rhs => rw [← List.map_id socks]
        apply List.map_congr_left
        intro c hmem
        exact if_neg fun h => hss c hmem hn h.symm
      simp [hothers]
    · have hc' : ¬ (n : ℤ) = ss.tid := by omega
      simp [hc, hc', ih hsocks]

/-- A clock that stands still. -/
def newYear : DateFormat := ⟨fun _ => ascii "01 Jan 00:00:00", fun _ => rfl, fun _ => by decide⟩

/-- A console in the top shell, and an MCP connection that came later. -/
def twoConnections : List Connection :=
  [⟨100, 4241, .quing, 3, 160, false, false, false, 1, some ⟨.top, 0, false, 7⟩, false⟩,
    ⟨120, 4242, .iwait, 12, 150, false, false, true, 0, none, false⟩]

end SocketList

end CogServer
