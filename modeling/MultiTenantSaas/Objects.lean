import MultiTenantSaas.Runs

/-!
Objects in the shared bucket. The key of an object goes to the client with the upload
URL and comes back with the confirmation of the upload.
-/

set_option autoImplicit false

namespace MultiTenantSaas

open Process

/-- Attachments name objects of their own task, and each tenant downloads objects under
its own keys, which no other tenant uploads. -/
structure ObjectIsolation (c : AppConfig) : Prop where
  keys : ∀ a : Attachment, a ∈ c.state.db.rows .attachments →
    fileKeyPrefix a.organizationId a.taskId <+: a.s3Key
  downloads : ∀ i key bearer o req k, (i, .presignGet key) ∈ c.state.trace →
    c.thread i = some ⟨.tenant bearer o req, k⟩ → ∃ taskId, fileKeyPrefix o taskId <+: key
  uploads : ∀ i j key bearer o req k bearer' o' req' k',
    (i, .presignGet key) ∈ c.state.trace → c.thread i = some ⟨.tenant bearer o req, k⟩ →
    (j, .presignPut key) ∈ c.state.trace → c.thread j = some ⟨.tenant bearer' o' req', k'⟩ → o' = o

/-- A confirmed upload has a key of its task. -/
def ownKey : Request → Db → Bool
  | .tenant _ o (.confirmAttachment taskId payload), _ =>
    (fileKeyPrefix o taskId).isPrefixOf payload.s3Key
  | _, _ => true

theorem fileKeyPrefix_tenant {o o' taskId taskId' : Uuid} {key : Str}
    (h : fileKeyPrefix o taskId <+: key) (h' : fileKeyPrefix o' taskId' <+: key) : o' = o := by
  simp only [fileKeyPrefix, List.append_assoc] at h h'
  exact Uuid.str_prefix h' h

section

variable [Library] {calm : Table → Uuid → Prop} {db : Db} {es : List Entry}

theorem Request.Writes.attachment {r : Request} (hw : r.Writes calm db es) {a : Attachment}
    (hmem : (⟨.attachments, a⟩ : Entry) ∈ es) :
    ∃ bearer o taskId payload uploaderId id now,
      r = .tenant bearer o (.confirmAttachment taskId payload) ∧
      a = newAttachment o taskId uploaderId payload id now := by
  cases r with
  | register clientIp payload =>
    obtain ⟨hashed, slug, id, orgId, memberId, now, now', now'', rfl, -⟩ := hw
    simp at hmem
  | tenant bearer o req =>
    obtain ⟨user, role, -, hw⟩ := hw
    have htable := hw.table hmem
    cases req <;> simp only [TenantRequest.tables, List.mem_cons, List.not_mem_nil, reduceCtorEq,
      or_self] at htable
    case confirmAttachment taskId payload =>
      obtain ⟨id, now, -, rfl, -⟩ := hw
      cases List.mem_singleton.mp hmem
      exact ⟨bearer, o, taskId, payload, user.id, id, now, rfl, rfl⟩
  | _ => exact hw.elim

theorem Request.Writes.attachmentKey {r : Request} (hw : r.Writes calm db es) {a : Attachment}
    (hmem : (⟨.attachments, a⟩ : Entry) ∈ es) (hkey : ownKey r db = true) :
    fileKeyPrefix a.organizationId a.taskId <+: a.s3Key := by
  obtain ⟨bearer, o, taskId, payload, uploaderId, id, now, rfl, rfl⟩ := hw.attachment hmem
  simp only [ownKey] at hkey
  exact List.isPrefixOf_iff_prefix.mp hkey

/-- When every confirmed upload has a key of its task, no run gives a tenant an object
of another. -/
theorem objects_isolated {faults : Faults} {now : Instant} {c : AppConfig}
    (h : Reach app (Committing ownKey) (genesis faults now) c) : ObjectIsolation c := by
  have h₀ := start_genesis faults now
  obtain ⟨hhist, hcommits⟩ := h₀.history (P := fun r db _ => ownKey r db = true)
    (fun c l _ => calm_uncovered c l) (fun c i r k hok ht => hok r k ht) h
  have hevents := h₀.events (h.mono fun c l _ => calm_uncovered c l)
  have hkeys : ∀ a : Attachment, a ∈ c.state.db.rows .attachments →
      fileKeyPrefix a.organizationId a.taskId <+: a.s3Key := by
    intro a ha
    rcases hhist.mem ha with hnone | ⟨d, hd, hmem⟩
    · exact absurd hnone (Db.not_mem_empty _)
    · obtain ⟨-, r, k, -, hw, hkey⟩ := hcommits d hd
      exact hw.attachmentKey hmem hkey
  have hdownloads : ∀ i key bearer o req k, (i, .presignGet key) ∈ c.state.trace →
      c.thread i = some ⟨.tenant bearer o req, k⟩ → ∃ taskId, fileKeyPrefix o taskId <+: key := by
    intro i key bearer o req k hi ht
    obtain ⟨r, k', ht', hl⟩ := hevents i _ hi
    rw [ht] at ht'
    cases ht'
    obtain ⟨a, hmem, rfl, rfl⟩ := hl
    exact ⟨a.taskId, hkeys a hmem⟩
  refine ⟨hkeys, hdownloads, fun i j key bearer o req k bearer' o' req' k' hi ht hj ht' => ?_⟩
  obtain ⟨taskId, hdown⟩ := hdownloads i key bearer o req k hi ht
  obtain ⟨r, k'', ht'', hl⟩ := hevents j _ hj
  rw [ht'] at ht''
  cases ht''
  obtain ⟨taskId', -, hup⟩ := hl
  exact fileKeyPrefix_tenant hdown hup

end

section

open scoped Ascii

def attachPlan (o : Uuid) : AppConfig :=
  runMoves (genesis noFaults 0) (annsProject ++ solo 3 (asAnn apolloTask) ++
    solo 4 (asAnn (.confirmAttachment (drawnId 17) ⟨"plan.pdf".toList, 1024,
      "application/pdf".toList, fileKeyPrefix o (drawnId 17) ++ "plan.pdf".toList⟩)))

theorem attachPlan_isolated : ObjectIsolation (attachPlan (drawnId 4)) :=
  objects_isolated (runMoves_committing (by decide +kernel))

/-- A user confirms the upload of an object of another organization. -/
theorem objects_not_isolated :
    ¬ ∀ c, Reach app anySchedule (genesis noFaults 0) c → ObjectIsolation c := by
  intro hall
  have hiso := hall (attachPlan (drawnId 11)) (runMoves_any fun _ => rfl)
  have hattached : ((attachPlan (drawnId 11)).state.db.get .attachments (drawnId 19)).map
      (fun a : Attachment => (fileKeyPrefix a.organizationId a.taskId).isPrefixOf a.s3Key) =
      some false := by decide +kernel
  obtain ⟨a, hget, ha⟩ := Option.map_eq_some_iff.mp hattached
  have hkey := List.isPrefixOf_iff_prefix.mpr (hiso.keys a (Db.get_eq_some.mp hget).1)
  rw [ha] at hkey
  cases hkey

end

end MultiTenantSaas
