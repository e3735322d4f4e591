import Mathlib.Data.Finset.Basic
import YominsAgent.Go.Path

/- The certificates of the host (`internal/collector/certs.go`).

   The paths that globs and configurations name are a set, which a `range` loop visits in
   an order of its own. Of the paths that lead to one file the first one visited labels
   the point, so the points are the same in every order exactly if the paths of one
   certificate have the same label (`collectCerts_order_iff`).

   Correspondence (Go ↔ Lean):
     `CertsCollector.Collect` ↔ `certFiles`, then `collectCerts` on the order of the loop
     a point                  ↔ `CertPoint`; its name and help text are constants
     `HostPaths.root`         ↔ `CertHost.rooted`
   What the code asks of the host is in `CertHost`: `filepath.Glob`, `os.ReadFile`,
   `filepath.EvalSymlinks`, `firstCert`, and what `reCertDirective` captures in a text. -/
namespace YominsAgent.Collector
open Go List

/-- What is read of a certificate. -/
structure Cert where
  commonName : Str
  dnsNames : List Str
  issuer : Str
  notAfter : Int
  deriving DecidableEq

structure CertHost where
  root : Str
  glob : Str → List Str
  readFile : Str → Option Str
  directives : Str → List Str
  evalSymlinks : Str → Option Str
  firstCert : Str → Option Cert

structure CertPoint where
  value : Int
  path : Str
  subject : Str
  issuer : Str
  deriving DecidableEq, Repr

def configGlobs : List Str :=
  ["/etc/nginx/nginx.conf".toList, "/etc/nginx/conf.d/*.conf".toList,
    "/etc/nginx/sites-enabled/*".toList, "/etc/apache2/sites-enabled/*".toList,
    "/etc/httpd/conf.d/*.conf".toList, "/etc/dovecot/conf.d/10-ssl.conf".toList,
    "/etc/exim4/conf.d/main/*".toList, "/etc/postfix/main.cf".toList]

namespace CertHost
variable (h : CertHost)

def rooted (p : Str) : Str := join h.root p

/-- `files` before the last loop. -/
def certFiles (globs : List Str) : Finset Str :=
  let found := globs.foldl (fun files g => files ∪ (h.glob (h.rooted g)).toFinset) ∅
  configGlobs.foldl (fun files g => (h.glob (h.rooted g)).foldl (fun files conf =>
    match h.readFile conf with
    | none => files
    | some b => (h.directives b).foldl (fun files sm =>
        let quote := ['"', '\'', '<'].contains
        let p := trimRightFunc quote (trimLeftFunc quote sm)
        if hasPrefix p ['/'] && !contains p ['$'] then insert (h.rooted p) files else files) files)
    files) found

/-- The root without its slash at the end. -/
def rootDir : Str := if hasSuffix h.root ['/'] then h.root.dropLast else h.root

/-- The label `path`. -/
def label (f : Str) : Str := trimPrefix f h.rootDir

def point (f : Str) (cert : Cert) : CertPoint where
  value := cert.notAfter
  path := h.label f
  subject := if cert.commonName = [] then cert.dnsNames.headD [] else cert.commonName
  issuer := cert.issuer

/-- The last loop; `seen` holds the files it has met. -/
def collectCerts (seen : List Str) : List Str → List CertPoint
  | [] => []
  | f :: rest =>
    match h.evalSymlinks f with
    | none => collectCerts seen rest
    | some real =>
      if real ∈ seen then collectCerts seen rest
      else match h.firstCert real with
        | none => collectCerts (real :: seen) rest
        | some cert => h.point f cert :: collectCerts (real :: seen) rest

/-! ## The points of an order -/

/-- The path is the first of `l` that leads to the file. -/
def FirstTo (l : List Str) (f real : Str) : Prop :=
  ∃ u v, l = u ++ f :: v ∧ h.evalSymlinks f = some real ∧ ∀ g ∈ u, h.evalSymlinks g ≠ some real

variable {h}

theorem firstTo_cons {l : List Str} {f g real : Str} : h.FirstTo (g :: l) f real ↔
    f = g ∧ h.evalSymlinks g = some real ∨ h.evalSymlinks g ≠ some real ∧ h.FirstTo l f real := by
  constructor
  · rintro ⟨u, v, hl, hreal, hu⟩
    cases u with
    | nil =>
      cases hl
      exact .inl ⟨rfl, hreal⟩
    | cons x u =>
      cases hl
      rw [forall_mem_cons] at hu
      exact .inr ⟨hu.1, u, v, rfl, hreal, hu.2⟩
  · rintro (⟨rfl, hreal⟩ | ⟨hg, u, v, rfl, hreal, hu⟩)
    · exact ⟨[], l, rfl, hreal, nofun⟩
    · exact ⟨g :: u, v, rfl, hreal, forall_mem_cons.mpr ⟨hg, hu⟩⟩

theorem exists_firstTo {l : List Str} {f real : Str} (hf : f ∈ l)
    (hreal : h.evalSymlinks f = some real) : ∃ g, h.FirstTo l g real := by
  induction l with
  | nil => cases hf
  | cons g l ih =>
    by_cases hg : h.evalSymlinks g = some real
    · exact ⟨g, firstTo_cons.mpr (.inl ⟨rfl, hg⟩)⟩
    · rcases mem_cons.mp hf with rfl | hf
      · exact absurd hreal hg
      · obtain ⟨x, hx⟩ := ih hf
        exact ⟨x, firstTo_cons.mpr (.inr ⟨hg, hx⟩)⟩

theorem FirstTo.mem {l : List Str} {f real : Str} (hf : h.FirstTo l f real) :
    f ∈ l ∧ h.evalSymlinks f = some real := by
  obtain ⟨u, v, rfl, hreal, -⟩ := hf
  exact ⟨mem_append_right u mem_cons_self, hreal⟩

/-- What the loop yields: for each file with a certificate the point of the first path. -/
theorem mem_collectCerts {seen l : List Str} {p : CertPoint} :
    p ∈ h.collectCerts seen l ↔ ∃ f real cert, h.FirstTo l f real ∧ real ∉ seen ∧
      h.firstCert real = some cert ∧ p = h.point f cert := by
  induction l generalizing seen with
  | nil =>
    refine ⟨nofun, ?_⟩
    rintro ⟨f, real, cert, hfirst, -⟩
    cases hfirst.mem.1
  | cons g l ih =>
    rw [collectCerts]
    simp only [firstTo_cons]
    cases hg : h.evalSymlinks g with
    | none => simp [ih]
    | some real0 =>
      dsimp only
      by_cases hseen : real0 ∈ seen
      · rw [if_pos hseen, ih]
        constructor
        · rintro ⟨f, real, cert, hfirst, hnew, hcert, rfl⟩
          exact ⟨f, real, cert, .inr ⟨fun he => hnew (Option.some_inj.mp he ▸ hseen), hfirst⟩, hnew,
            hcert, rfl⟩
        · rintro ⟨f, real, cert, ⟨-, he⟩ | ⟨-, hfirst⟩, hnew, hcert, rfl⟩
          · exact absurd hseen (Option.some_inj.mp he ▸ hnew)
          · exact ⟨f, real, cert, hfirst, hnew, hcert, rfl⟩
      · rw [if_neg hseen]
        -- behind this path the file counts as seen, whether it has a certificate or not
        have hlater : p ∈ h.collectCerts (real0 :: seen) l ↔ ∃ f real cert,
            (some real0 ≠ some real ∧ h.FirstTo l f real) ∧ real ∉ seen ∧
              h.firstCert real = some cert ∧ p = h.point f cert := by
          grind
        cases hcert : h.firstCert real0 with
        | none => simp only [hlater]; grind
        | some cert0 => simp only [mem_cons]; grind

/-! ## Every order -/

/-- The list is an order in which a loop may visit the set. -/
def Visits (files : Finset Str) (l : List Str) : Prop := l.Nodup ∧ l.toFinset = files

/-- The points are the same in every order. -/
def OrderFree (h : CertHost) (files : Finset Str) : Prop :=
  ∀ l l', Visits files l → Visits files l' → ∀ p, p ∈ h.collectCerts [] l ↔ p ∈ h.collectCerts [] l'

/-- The paths of a certificate have one label. -/
def OneLabel (h : CertHost) (files : Finset Str) : Prop :=
  ∀ f ∈ files, ∀ g ∈ files, ∀ real cert, h.evalSymlinks f = some real →
    h.evalSymlinks g = some real → h.firstCert real = some cert → h.label f = h.label g

theorem orderFree_of_oneLabel {files : Finset Str} (hone : OneLabel h files) : OrderFree h files := by
  have hstep : ∀ l l', Visits files l → Visits files l' →
      ∀ p ∈ h.collectCerts [] l, p ∈ h.collectCerts [] l' := by
    intro l l' hl hl' p hp
    obtain ⟨f, real, cert, hf, -, hcert, rfl⟩ := mem_collectCerts.mp hp
    have hmem : ∀ {x}, x ∈ l ↔ x ∈ l' := by
      intro x
      rw [← mem_toFinset, hl.2, ← hl'.2, mem_toFinset]
    obtain ⟨g, hg⟩ := exists_firstTo (hmem.mp hf.mem.1) hf.mem.2
    have hlabel : h.label f = h.label g := by
      refine hone f ?_ g ?_ real cert hf.mem.2 hg.mem.2 hcert
      · exact hl.2 ▸ mem_toFinset.mpr hf.mem.1
      · exact hl'.2 ▸ mem_toFinset.mpr hg.mem.1
    exact mem_collectCerts.mpr ⟨g, real, cert, hg, nofun, hcert, by rw [point, hlabel]; rfl⟩
  exact fun l l' hl hl' p => ⟨hstep l l' hl hl' p, hstep l' l hl' hl p⟩

/-- Labels tell paths below the root apart. A path out of it may have the label of one below. -/
theorem label_inj {f g : Str} (hf : h.rootDir <+: f) (hg : h.rootDir <+: g)
    (heq : h.label f = h.label g) : f = g := by
  obtain ⟨x, rfl⟩ := hf
  obtain ⟨y, rfl⟩ := hg
  simpa [label, trimPrefix] using heq

theorem visits_first {files : Finset Str} {f : Str} (hf : f ∈ files) :
    Visits files (f :: (files.erase f).toList) := by
  refine ⟨nodup_cons.mpr ⟨by simp, Finset.nodup_toList _⟩, ?_⟩
  rw [toFinset_cons, Finset.toList_toFinset, Finset.insert_erase hf]

theorem oneLabel_of_orderFree {files : Finset Str}
    (hinj : ∀ f ∈ files, ∀ g ∈ files, h.label f = h.label g → f = g) (hfree : OrderFree h files) :
    OneLabel h files := by
  intro f hf g hg real cert hreal hreal' hcert
  have hp : h.point f cert ∈ h.collectCerts [] (f :: (files.erase f).toList) :=
    mem_collectCerts.mpr ⟨f, real, cert, firstTo_cons.mpr (.inl ⟨rfl, hreal⟩), nofun, hcert, rfl⟩
  obtain ⟨x, real', cert', hx, -, hcert', hpoint⟩ :=
    mem_collectCerts.mp ((hfree _ _ (visits_first hf) (visits_first hg) _).mp hp)
  have hlabel : h.label f = h.label x := congrArg CertPoint.path hpoint
  have hsame : f = x := by
    refine hinj f hf x ?_ hlabel
    exact (visits_first hg).2 ▸ mem_toFinset.mpr hx.mem.1
  -- the path itself must then be met before the other one
  subst hsame
  cases hreal.symm.trans hx.mem.2
  rcases firstTo_cons.mp hx with ⟨rfl, -⟩ | ⟨hne, -⟩
  · rfl
  · exact absurd hreal' hne

/-- The points do not depend on the order if the paths of each certificate have one label; and
only if, where labels tell the paths apart, as they do when all lie below the root. Below `/`
they always do. -/
theorem collectCerts_order_iff (h : CertHost) (globs : List Str) :
    (OneLabel h (h.certFiles globs) → OrderFree h (h.certFiles globs)) ∧
    ((∀ f ∈ h.certFiles globs, ∀ g ∈ h.certFiles globs, h.label f = h.label g → f = g) →
      OrderFree h (h.certFiles globs) → OneLabel h (h.certFiles globs)) ∧
    ((∀ f ∈ h.certFiles globs, h.rootDir <+: f) →
      (OrderFree h (h.certFiles globs) ↔ OneLabel h (h.certFiles globs))) := by
  refine ⟨orderFree_of_oneLabel, oneLabel_of_orderFree, fun hbelow => ⟨?_, orderFree_of_oneLabel⟩⟩
  exact oneLabel_of_orderFree fun f hf g hg => label_inj (hbelow f hf) (hbelow g hg)

/-- Two names of a site whose certificates are links to one file. -/
def linkedHost : CertHost where
  root := ['/']
  glob g := if g = "/etc/letsencrypt/live/*/cert.pem".toList then
    ["/etc/letsencrypt/live/a/cert.pem".toList, "/etc/letsencrypt/live/b/cert.pem".toList] else []
  readFile _ := none
  directives _ := []
  evalSymlinks _ := some "/etc/letsencrypt/archive/a/cert1.pem".toList
  firstCert _ := some ⟨"a.example".toList, [], "CA".toList, 1700000000⟩

/-- The label of the one point is the path the loop met first. -/
theorem linkedHost_order :
    let a := "/etc/letsencrypt/live/a/cert.pem".toList
    let b := "/etc/letsencrypt/live/b/cert.pem".toList
    let files := linkedHost.certFiles ["/etc/letsencrypt/live/*/cert.pem".toList]
    Visits files [a, b] ∧ Visits files [b, a] ∧
      (linkedHost.collectCerts [] [a, b]).map (·.path) = [a] ∧
      (linkedHost.collectCerts [] [b, a]).map (·.path) = [b] := by
  refine ⟨⟨by decide +kernel, by decide +kernel⟩, ⟨by decide +kernel, by decide +kernel⟩,
    by decide +kernel, by decide +kernel⟩

end CertHost

end YominsAgent.Collector
