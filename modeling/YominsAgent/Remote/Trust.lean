import YominsAgent.Remote.Config

/- How far the remote configuration reaches (`internal/remote/remote.go`, `Apply`).

   What is read on the host, the log paths, the scrape URLs and the nginx status URL, is
   the host owner's unless the mode is `full`, and then it is only added to; where logs may
   be read at all is never the server's to say (`trust_modes`). Each part of `Apply` keeps
   to that (`Keeps`), and so do all of them together.

   Correspondence (Go ↔ Lean):
     `config.Config` ↔ `AgentConfig`: the fields `Apply` sets (`LocalConfig`) and the
                       others (`HostConfig`)
     `mode string`   ↔ `modeOf`: `Apply` compares it with two words -/
namespace YominsAgent.Remote
open Go

/-- The fields of `config.Config` that `Apply` does not set. -/
structure HostConfig where
  version : Bool
  uninstall : Bool
  dryRun : Bool
  server : Str
  token : Str
  logLevel : Str
  hostnameOverride : Str
  disableFilesystems : Bool
  disableNetwork : Bool
  insecureSkipVerify : Bool
  stateDir : Str
  disableAutoUpgrade : Bool
  autoUpgradeInterval : Int
  excludeMountpoints : Slice Str
  excludeInterfaces : Slice Str
  includeInterfaces : Slice Str
  disableKernelCareInfo : Bool
  virtualizationOverride : Str
  eventBufferSize : Int
  wtmpPath : Str
  authLogPath : Str
  suspiciousPatterns : Slice Str
  bruteforceThreshold : Int
  bruteforceWindow : Int
  bruteforceSuppression : Int
  monitorTmpPaths : Bool
  monitorConfigFiles : Bool
  ignorePrivateIP : Bool
  eventFlushInterval : Int
  eventBatchSize : Int
  /-- The only places logs may be read from. -/
  logAllow : Slice Str
  remoteConfig : Str
  mySQLDSN : Str
  deriving DecidableEq, Repr

structure AgentConfig extends LocalConfig, HostConfig
  deriving DecidableEq, Repr

/-- Any word but `full` and `off` is taken for `limited`. -/
def modeOf (mode : Str) : Mode :=
  if mode = "off".toList then .off else if mode = "full".toList then .full else .limited

def AgentConfig.apply (cfg : AgentConfig) (c : Config) (mode : Str) : AgentConfig :=
  { cfg with toLocalConfig := Remote.apply cfg.toLocalConfig c (modeOf mode) }

/-- What chooses where the agent reads: the log paths, the scrape URLs and the status URL. -/
def LocalConfig.reads (cfg : LocalConfig) : Slice Str × Slice Str × Str :=
  (cfg.logPaths, cfg.scrapeURLs, cfg.nginxStatusURL)

/-- What the host owner has set is still there; only the mode `full` adds to what is read. -/
structure Keeps (mode : Mode) (cfg cfg' : LocalConfig) : Prop where
  paths : cfg.logPaths.elems <+: cfg'.logPaths.elems
  exclude : cfg.logExclude.elems <+: cfg'.logExclude.elems
  redact : cfg.logRedact.elems <+: cfg'.logRedact.elems
  scrape : cfg.scrapeURLs.elems <+: cfg'.scrapeURLs.elems
  statusURL : cfg.nginxStatusURL ≠ [] → cfg'.nginxStatusURL = cfg.nginxStatusURL
  reads : mode ≠ .full → cfg'.reads = cfg.reads

namespace Keeps

variable {mode : Mode} {cfg cfg' cfg'' : LocalConfig}

theorem refl (mode : Mode) (cfg : LocalConfig) : Keeps mode cfg cfg :=
  ⟨List.prefix_refl _, List.prefix_refl _, List.prefix_refl _, List.prefix_refl _, fun _ => rfl,
    fun _ => rfl⟩

theorem trans (h : Keeps mode cfg cfg') (h' : Keeps mode cfg' cfg'') : Keeps mode cfg cfg'' where
  paths := h.paths.trans h'.paths
  exclude := h.exclude.trans h'.exclude
  redact := h.redact.trans h'.redact
  scrape := h.scrape.trans h'.scrape
  statusURL := by
    intro hne
    have hkept := h.statusURL hne
    rw [← hkept] at hne
    exact (h'.statusURL hne).trans hkept
  reads := fun hmode => (h'.reads hmode).trans (h.reads hmode)

theorem applyInterval (mode : Mode) (cfg : LocalConfig) (s : Option Str) :
    Keeps mode cfg (Remote.applyInterval cfg s) := by
  unfold Remote.applyInterval
  split
  · exact refl mode cfg
  · split
    · exact { refl mode cfg with }
    · exact refl mode cfg

theorem applyDisabledCollectors (mode : Mode) (cfg : LocalConfig) (l : Slice Str) :
    Keeps mode cfg (Remote.applyDisabledCollectors cfg l) := by
  unfold Remote.applyDisabledCollectors
  split
  · exact refl mode cfg
  · exact { refl mode cfg with }

theorem prefix_append (s t : Slice Str) : s.elems <+: (s.append t).elems := by
  rw [Slice.elems_append]
  exact List.prefix_append _ _

theorem applyLogs (mode : Mode) (cfg : LocalConfig) (l : Option LogsConfig) :
    Keeps mode cfg (Remote.applyLogs cfg mode l) := by
  cases l with
  | none => exact refl mode cfg
  | some l =>
    refine { refl mode cfg with
      paths := ?_, exclude := prefix_append _ _, redact := prefix_append _ _, reads := ?_ }
    · show _ <+: (if mode = .full then cfg.logPaths.append l.paths else cfg.logPaths).elems
      split
      · exact prefix_append _ _
      · exact List.prefix_refl _
    · intro hmode
      simp only [LocalConfig.reads, Remote.applyLogs, if_neg hmode]

theorem applyIntegrations (mode : Mode) (cfg : LocalConfig) (i : Option IntegrationsConfig) :
    Keeps mode cfg (Remote.applyIntegrations cfg mode i) := by
  cases i with
  | none => exact refl mode cfg
  | some i =>
    refine { refl mode cfg with scrape := ?_, statusURL := ?_, reads := ?_ }
    · show _ <+: (if mode = .full then cfg.scrapeURLs.append i.scrapeURLs else cfg.scrapeURLs).elems
      split
      · exact prefix_append _ _
      · exact List.prefix_refl _
    · intro hne
      simp only [Remote.applyIntegrations, hne, and_false, if_false]
      cases i.nginxStatusURL <;> rfl
    · intro hmode
      simp only [LocalConfig.reads, Remote.applyIntegrations, hmode, false_and, if_false]
      cases i.nginxStatusURL <;> rfl

theorem applyEvents (mode : Mode) (cfg : LocalConfig) (e : Option EventsConfig) :
    Keeps mode cfg (Remote.applyEvents cfg e) := by
  cases e with
  | none => exact refl mode cfg
  | some => exact { refl mode cfg with }

theorem apply (mode : Mode) (cfg : LocalConfig) (c : Config) :
    Keeps mode cfg (Remote.apply cfg c mode) := by
  unfold Remote.apply
  split
  · exact refl mode cfg
  · exact ((((applyInterval mode cfg c.interval).trans
      (applyDisabledCollectors mode _ c.disabledCollectors)).trans
      (applyLogs mode _ c.logs)).trans (applyIntegrations mode _ c.integrations)).trans
      (applyEvents mode _ c.events)

end Keeps

/-- What any two remote configurations can do to a local one in each mode. -/
theorem trust_modes (cfg : AgentConfig) (c c' : Config) (mode : Str) :
    (mode = "off".toList → cfg.apply c mode = cfg) ∧
    (mode ≠ "full".toList →
      (cfg.apply c mode).reads = (cfg.apply c' mode).reads ∧
      (cfg.apply c mode).reads = cfg.reads) ∧
    (cfg.apply c mode).logAllow = cfg.logAllow ∧
    cfg.logPaths.elems <+: (cfg.apply c mode).logPaths.elems ∧
    cfg.logExclude.elems <+: (cfg.apply c mode).logExclude.elems ∧
    cfg.logRedact.elems <+: (cfg.apply c mode).logRedact.elems ∧
    cfg.scrapeURLs.elems <+: (cfg.apply c mode).scrapeURLs.elems ∧
    (cfg.nginxStatusURL ≠ [] → (cfg.apply c mode).nginxStatusURL = cfg.nginxStatusURL) ∧
    (cfg.apply c mode).toHostConfig = cfg.toHostConfig := by
  have h := Keeps.apply (modeOf mode) cfg.toLocalConfig c
  refine ⟨?_, ?_, rfl, h.paths, h.exclude, h.redact, h.scrape, h.statusURL, rfl⟩
  · rintro rfl
    rfl
  · intro hmode
    have hnot : modeOf mode ≠ .full := by
      rw [modeOf, if_neg hmode]
      split
      · decide
      · decide
    have h' := Keeps.apply (modeOf mode) cfg.toLocalConfig c'
    exact ⟨(h.reads hnot).trans (h'.reads hnot).symm, h.reads hnot⟩

end YominsAgent.Remote
