import YominsAgent.Go.Match
import YominsAgent.Logs.Globs
import YominsAgent.Logs.Spelling

/- Known logs of containers, found on the host (`docker.go`, `hostGlob`).

   The host's directory is put in front of what a glob has behind the mount's directory. Matching
   sees no difference exactly when the host's directory has no character that means something in a
   pattern (`hostGlob_faithful_iff`). One makes it a pattern: the mount itself is not matched, or
   other directories are (`hostGlob_brackets`). The mount's directory may have stars, which the
   glob has there too: each stands before a slash, and takes itself.

   Correspondence (Go ↔ Lean):
     the globs of `knownLogs` ↔ `knownGlobs`
     `filepath.Match`         ↔ `fileMatch`, on the bytes of a name -/
namespace YominsAgent.Logs
open Go

structure Mount where
  source : Str
  destination : Str

def hostGlob (g : Str) (m : Mount) : Option Str :=
  if m.destination = ['/'] then none
  else if hasPrefix g (m.destination ++ ['/']) then
    some (join m.source (g.drop (m.destination ++ ['/']).length))
  else none

def knownGlobs : List Str :=
  ["/var/log/syslog", "/var/log/messages", "/var/log/daemon.log", "/var/log/user.log",
    "/var/log/auth.log", "/var/log/secure", "/var/log/kern.log", "/var/log/cron.log",
    "/var/log/cron", "/var/log/dpkg.log", "/var/log/dnf.log", "/var/log/yum.log",
    "/var/log/apt/history.log", "/var/log/unattended-upgrades/unattended-upgrades.log",
    "/var/log/nginx/*access*.log", "/var/log/nginx/*analytics*.log", "/var/log/nginx/*error*.log",
    "/var/log/apache2/*access*.log", "/var/log/httpd/*access*_log", "/var/log/httpd/*access*.log",
    "/var/log/apache2/*error*.log", "/var/log/httpd/*error*_log", "/var/log/httpd/*error*.log",
    "/var/log/php*-fpm.log", "/var/log/php-fpm/*.log", "/var/log/php-fpm*/*error*.log",
    "/var/log/php-fpm*/*slow*.log", "/var/log/php*/*error*.log", "/var/log/php-fpm*/*access*.log",
    "/var/log/mysql/*.log", "/var/log/mariadb/*.log", "/var/log/mysqld.log",
    "/var/lib/mysql/*.err", "/var/lib/mysql/*slow*.log", "/var/log/postgresql/*.log",
    "/var/log/redis/*.log", "/var/log/mongodb/*.log", "/var/log/mail.log", "/var/log/maillog",
    "/var/log/mail.err", "/var/log/exim4/mainlog", "/var/log/exim4/rejectlog",
    "/var/log/exim4/paniclog", "/var/log/exim/main.log", "/var/log/exim/reject.log",
    "/var/log/exim/panic.log", "/var/log/dovecot*.log", "/var/log/vsftpd.log", "/var/log/xferlog",
    "/var/log/proftpd/*.log", "/var/log/fail2ban.log", "/var/log/clamav/*.log",
    "/var/lib/docker/containers/*/*-json.log", "/home/*/logs/*.log", "/home/*/logs/*/*.log",
    "/var/www/*/logs/*.log", "/var/www/*/log/*.log", "/var/log/yomins/*.log"].map String.toList

/-- The directory with its slash. -/
def slashed (dir : Str) : Str := if dir = ['/'] then dir else dir ++ ['/']

/-- A path below a directory. -/
def below (dir : Str) (r : Bytes) : Bytes := toBytes (slashed dir) ++ r

/-! ## The path of the glob -/

theorem splitOn_parts (a b : Str) : splitOn '/' (a ++ '/' :: b) = splitOn '/' a ++ splitOn '/' b := by
  induction a with
  | nil => exact splitOn_sep '/' b
  | cons c a ih =>
    obtain ⟨part, parts, hparts⟩ := List.exists_cons_of_ne_nil (splitOn_ne_nil '/' a)
    by_cases hc : c = '/' <;> simp [splitOn, hc, ih, hparts]

/-- `Join` puts a glob that is a clean path behind the directory as it is. -/
theorem hostGlob_eq {g h : Str} {m : Mount} (hg : clean g = g)
    (hs : clean m.source = m.source ∧ hasPrefix m.source ['/'] = true)
    (hd : hasPrefix m.destination ['/'] = true) (hh : hostGlob g m = some h) :
    ∃ rest, g = slashed m.destination ++ rest ∧ h = slashed m.source ++ rest := by
  rw [hostGlob] at hh
  split at hh
  · cases hh
  next hroot =>
  split at hh
  · next hpre =>
    cases hh
    obtain ⟨rest, rfl⟩ := List.isPrefixOf_iff_prefix.mp hpre
    obtain ⟨s, hsource⟩ := List.isPrefixOf_iff_prefix.mp hs.2
    obtain ⟨d, hdest⟩ := List.isPrefixOf_iff_prefix.mp hd
    refine ⟨rest, by rw [slashed, if_neg hroot], ?_⟩
    have hrest : ∀ part ∈ splitOn '/' rest, isName part = true := by
      have hnames := (clean_rooted_iff (d ++ '/' :: rest)).mp (by simpa [← hdest] using hg)
      rw [splitOn_parts] at hnames
      intro part hpart
      exact hnames.resolve_left (by simp) part (List.mem_append_right _ hpart)
    rw [List.drop_left, join, if_neg (by rw [← hsource]; simp), slashed]
    rw [← hsource] at hs ⊢
    rcases (clean_rooted_iff s).mp hs.1 with rfl | hnames
    · have hslashes : clean ('/' :: '/' :: rest) = clean ('/' :: rest) := by
        rfl
      exact hslashes.trans ((clean_rooted_iff rest).mpr (.inr hrest))
    · have hs' : s ≠ [] := by
        rintro rfl
        exact absurd (hnames [] List.mem_cons_self) (by decide)
      rw [if_neg (by simpa using hs')]
      have hall := (clean_rooted_iff (s ++ '/' :: rest)).mpr (.inr ?_)
      · simpa using hall
      · rw [splitOn_parts]
        exact List.forall_mem_append.mpr ⟨hnames, hrest⟩
  · cases hh

theorem literal_bytes {s : Str} (h : hasMeta s = false) :
    ∀ x ∈ toBytes (slashed s), isLiteral x = true := by
  have hslashed : hasMeta (slashed s) = false := by
    rw [slashed]
    split
    · exact h
    · rw [hasMeta, List.any_append]
      exact Bool.or_eq_false_iff.mpr ⟨h, rfl⟩
  intro x hx
  obtain ⟨c, hc, hx⟩ := List.mem_flatMap.mp hx
  have hmeta := List.any_eq_false.mp hslashed c hc
  have hbyte : byteRune x = c ∨ isAscii (byteRune x) = false := by
    have hmem : byteRune x ∈ (encodeRune c).map byteRune := List.mem_map_of_mem hx
    cases hascii : isAscii c with
    | true =>
      rw [encodeRune_ascii hascii] at hmem
      exact .inl (List.mem_singleton.mp hmem)
    | false => exact .inr ((encodeRune_other hascii).2 _ hmem)
  rw [isLiteral_iff]
  refine ⟨?_, ?_, ?_, ?_⟩
  all_goals
    rintro rfl
    rcases hbyte with rfl | hother
    · exact hmeta (by decide)
    · exact absurd hother (by decide)

theorem hasMeta_of_bytes {s : Str} (h : ∀ x ∈ toBytes (slashed s), isLiteral x = true) :
    hasMeta s = false := by
  rw [hasMeta, List.any_eq_false]
  intro c hc hmeta
  have hslashed : c ∈ slashed s := by
    rw [slashed]
    split
    · exact hc
    · exact List.mem_append_left _ hc
  have hall : ∀ x ∈ encodeRune c, isLiteral x = true :=
    fun x hx => h x (List.mem_flatMap.mpr ⟨c, hslashed, hx⟩)
  simp only [Bool.or_eq_true, beq_iff_eq] at hmeta
  rcases hmeta with ((rfl | rfl) | rfl) | rfl <;> exact absurd hall (by decide)

/-! ## Matching on the host -/

/-- The glob of the host matches the paths of `R` below the source as the glob of the container
does below the destination, and nothing outside the source. -/
def Faithful (R : Bytes → Prop) (g : Str) (m : Mount) : Prop :=
  ∀ h, hostGlob g m = some h →
    (∀ r, R r → fileMatch (toBytes h) (below m.source r) =
      fileMatch (toBytes g) (below m.destination r)) ∧
    ∀ name, fileMatch (toBytes h) name = true → ∃ r, name = below m.source r

/-- A relative path that is clean. -/
def isRelative (r : Str) : Bool := (splitOn '/' r).all isName

/-- A name for each star. -/
def filled (rest : Str) : Str := rest.map fun c => if c = '*' then 'a' else c

/-- What a glob has up to a slash matches itself; what it has behind the slash has no mark, and
matches a path. -/
def splits (dir rest : Str) : Bool :=
  matchesItself (toBytes dir) && (toBytes rest).all (!isMark ·) &&
    (isRelative (filled rest) && fileMatch (toBytes rest) (toBytes (filled rest)))

theorem known_splits : ∀ g ∈ knownGlobs, clean g = g ∧
    ∀ n < g.length, g[n]? = some '/' → splits (g.take (n + 1)) (g.drop (n + 1)) = true := by
  decide +kernel

theorem hostGlob_isSome (g : Str) {m : Mount} (hroot : m.destination ≠ ['/']) :
    (hostGlob g m).isSome = true ↔ m.destination ++ ['/'] <+: g := by
  rw [hostGlob, if_neg hroot, hasPrefix, ← List.isPrefixOf_iff_prefix]
  split
  · next hpre => simp [hpre]
  · next hpre => simp [hpre]

theorem toBytes_append (a b : Str) : toBytes (a ++ b) = toBytes a ++ toBytes b :=
  List.flatMap_append

theorem bytes_ne_nil (dir : Str) : toBytes (slashed dir) ≠ [] := by
  intro hnil
  have hsame : slashed dir = [] := toBytes_inj.mp hnil
  rw [slashed] at hsame
  split at hsame
  · next hdir => rw [hdir] at hsame; cases hsame
  · simp at hsame

/-- The glob of the host means that of the container unless the mount applies to it and the
source has a character of patterns. -/
theorem hostGlob_faithful_iff (m : Mount) {g : Str} (hg : g ∈ knownGlobs)
    (hs : clean m.source = m.source ∧ hasPrefix m.source ['/'] = true)
    (hd : hasPrefix m.destination ['/'] = true) (hroot : m.destination ≠ ['/'])
    {R : Bytes → Prop} (hR : ∀ r, isRelative r = true → R (toBytes r)) :
    (Faithful R g m ↔ ¬ m.destination ++ ['/'] <+: g ∨ hasMeta m.source = false) ∧
    ((hostGlob g m).isSome = true ↔ m.destination ++ ['/'] <+: g) := by
  obtain ⟨hclean, hparts⟩ := known_splits g hg
  have hsome := hostGlob_isSome g hroot
  refine ⟨?_, hsome⟩
  by_cases hpre : m.destination ++ ['/'] <+: g
  · obtain ⟨h, hh⟩ := Option.isSome_iff_exists.mp (hsome.mpr hpre)
    obtain ⟨rest, hgl, hhl⟩ := hostGlob_eq hclean hs hd hh
    have hslash : slashed m.destination = m.destination ++ ['/'] := if_neg hroot
    have hsplit := hparts m.destination.length (by simp [hgl, hslash]) (by simp [hgl, hslash])
    have htake : g.take (m.destination.length + 1) = slashed m.destination := by
      rw [hgl]
      exact List.take_left' (by simp [hslash])
    have hdrop : g.drop (m.destination.length + 1) = rest := by
      rw [hgl]
      exact List.drop_left' (by simp [hslash])
    simp only [htake, hdrop, splits, Bool.and_eq_true, List.all_eq_true, Bool.not_eq_true'] at hsplit
    obtain ⟨⟨hself, hplain⟩, hrel, hfills⟩ := hsplit
    have hinside : ∀ r, fileMatch (toBytes g) (below m.destination r) = fileMatch (toBytes rest) r := by
      intro r
      rw [hgl, toBytes_append, below, fileMatch_self hself]
    have hhost : toBytes h = toBytes (slashed m.source) ++ toBytes rest := by
      rw [hhl, toBytes_append]
    constructor
    · intro hf
      obtain ⟨hsame, honly⟩ := hf h hh
      -- a file that the glob of the container matches is matched, and only with the source in front
      have hfile := (hsame _ (hR _ hrel)).trans ((hinside _).trans hfills)
      rw [hhost] at hfile honly
      refine .inr (hasMeta_of_bytes (literal_of_start hplain hfile ?_))
      intro name hname
      obtain ⟨r, rfl⟩ := honly name hname
      exact List.prefix_append _ _
    · rintro (hno | hmeta)
      · exact absurd hpre hno
      · intro h' hh'
        cases hh.symm.trans hh'
        have hlit := literal_bytes hmeta
        rw [hhost]
        refine ⟨fun r _ => ?_, fun name hname => ?_⟩
        · rw [hinside, below, fileMatch_literal hlit (bytes_ne_nil _)]
        · obtain ⟨r, rfl⟩ := prefix_of_fileMatch hlit (bytes_ne_nil _) hname
          exact ⟨r, rfl⟩
  · refine iff_of_true (fun h hh => ?_) (.inl hpre)
    exact absurd (hsome.mp (Option.isSome_iff_exists.mpr ⟨h, hh⟩)) hpre

theorem nginx_faithful_iff :
    fileMatch (toBytes "/srv/edge/*access*.log".toList)
      (below "/srv/edge".toList (toBytes "access.log".toList)) = true ∧
    ¬ Faithful (fun _ => True) "/var/log/nginx/*access*.log".toList
      ⟨"/srv/[a]".toList, "/var/log/nginx".toList⟩ := by
  have hg : "/var/log/nginx/*access*.log".toList ∈ knownGlobs := by decide +kernel
  constructor
  · have hf := (hostGlob_faithful_iff ⟨"/srv/edge".toList, "/var/log/nginx".toList⟩ hg
      ⟨by decide +kernel, by decide⟩ (by decide) (by decide) (R := fun _ => True)
      (fun _ _ => trivial)).1.mpr (.inr (by decide))
    exact ((hf "/srv/edge/*access*.log".toList (by decide +kernel)).1 _ trivial).trans
      (by decide +kernel)
  · rw [(hostGlob_faithful_iff ⟨"/srv/[a]".toList, "/var/log/nginx".toList⟩ hg
      ⟨by decide +kernel, by decide⟩ (by decide) (by decide) (fun _ _ => trivial)).1]
    decide +kernel

/-- A directory of the host with brackets in its name: what lies in it is not matched, and
another directory is. -/
theorem hostGlob_brackets : hostGlob "/var/log/nginx/*access*.log".toList
    ⟨"/srv/[a]".toList, "/var/log/nginx".toList⟩ = some "/srv/[a]/*access*.log".toList ∧
    fileMatch (toBytes "/srv/[a]/*access*.log".toList) (toBytes "/srv/[a]/access.log".toList) = false ∧
    fileMatch (toBytes "/var/log/nginx/*access*.log".toList)
      (toBytes "/var/log/nginx/access.log".toList) = true ∧
    fileMatch (toBytes "/srv/[a]/*access*.log".toList) (toBytes "/srv/a/access.log".toList) = true := by
  decide +kernel

end YominsAgent.Logs
