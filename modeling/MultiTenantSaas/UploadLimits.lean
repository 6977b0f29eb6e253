import MultiTenantSaas.Deletions
import MultiTenantSaas.Objects

/-!
The limits of an upload. The request for the upload URL checks them, and the confirmation
of the upload, which carries the name, the size and the type again, stores its own.
-/

set_option autoImplicit false

namespace MultiTenantSaas

open Process

/-- The limits that the request for the upload URL checks. -/
structure Attachment.Limited (a : Attachment) : Prop where
  nameMin : 1 ≤ a.fileName.length
  nameMax : a.fileName.length ≤ 255
  sizeMin : 0 < a.fileSize
  sizeMax : a.fileSize ≤ 52428800
  typeMin : 3 ≤ a.contentType.length
  typeMax : a.contentType.length ≤ 100

/-- The confirmation keeps the limits that the columns do not have. -/
def AttachmentConfirmCreate.limited (payload : AttachmentConfirmCreate) : Bool :=
  1 ≤ payload.fileName.length && 0 < payload.fileSize && payload.fileSize ≤ 52428800 &&
    3 ≤ payload.contentType.length

def confirmLimited : Request → Db → Bool
  | .tenant _ _ (.confirmAttachment _ payload), _ => payload.limited
  | _, _ => true

theorem PresignedUploadRequest.limited (asked : PresignedUploadRequest) (s3Key : Str) :
    AttachmentConfirmCreate.limited
      ⟨asked.fileName.text, asked.fileSize.val, asked.contentType.text, s3Key⟩ = true := by
  simp [AttachmentConfirmCreate.limited, asked.fileName.min, asked.fileSize.gt, asked.fileSize.le,
    asked.contentType.min]

theorem Attachment.limited_iff {o taskId uploaderId id : Uuid} {payload : AttachmentConfirmCreate}
    {now : Instant} (hfits : Table.attachments.fits
      (newAttachment o taskId uploaderId payload id now) = true) :
    (newAttachment o taskId uploaderId payload id now).Limited ↔ payload.limited = true := by
  simp only [Table.fits, Bool.and_eq_true, varchar_iff] at hfits
  obtain ⟨⟨⟨hname, -⟩, htype⟩, -⟩ := hfits
  simp only [AttachmentConfirmCreate.limited, Bool.and_eq_true, decide_eq_true_eq]
  constructor
  · intro h
    exact ⟨⟨⟨h.nameMin, h.sizeMin⟩, h.sizeMax⟩, h.typeMin⟩
  · rintro ⟨⟨⟨hnameMin, hsizeMin⟩, hsizeMax⟩, htypeMin⟩
    exact ⟨hnameMin, hname, hsizeMin, hsizeMax, htypeMin, htype⟩

section

variable [Library]

/-- While every committed confirmation keeps the limits, all attachments do. -/
theorem attachments_limited {faults : Faults} {now : Instant} {c : AppConfig}
    (h : Reach app (Committing confirmLimited) (genesis faults now) c) :
    ∀ a : Attachment, a ∈ c.state.db.rows .attachments → a.Limited := by
  obtain ⟨hhist, hcommits⟩ := (start_genesis faults now).history
    (P := fun r db _ => confirmLimited r db = true)
    (fun c l _ => calm_uncovered c l) (fun c i r k hok ht => hok r k ht) h
  have hfits := reached_fits (h.mono fun _ _ _ => trivial)
  intro a ha
  rcases hhist.mem ha with hnone | ⟨d, hd, hmem⟩
  · exact absurd hnone (Db.not_mem_empty _)
  · obtain ⟨-, r, k, -, hw, hlimited⟩ := hcommits d hd
    obtain ⟨bearer, o, taskId, payload, uploaderId, id, now, rfl, rfl⟩ := hw.attachment hmem
    exact (Attachment.limited_iff (hfits.db .attachments _ ha)).mpr hlimited

end

section

open scoped Ascii

def attached (name : Str) (size : Int) (type : Str) : AppConfig :=
  runMoves (genesis noFaults 0) (annsProject ++ solo 3 (asAnn apolloTask) ++
    solo 4 (asAnn (.confirmAttachment (drawnId 17) ⟨name, size, type,
      fileKeyPrefix (drawnId 4) (drawnId 17) ++ name⟩)))

theorem plan_limited : ∃ a : Attachment,
    (attached "plan.pdf".toList 1024 "application/pdf".toList).state.db.get .attachments
      (drawnId 19) = some a ∧ a.Limited := by
  have hstored : ((attached "plan.pdf".toList 1024 "application/pdf".toList).state.db.get
      .attachments (drawnId 19)).isSome = true := by decide +kernel
  obtain ⟨a, hget⟩ := Option.isSome_iff_exists.mp hstored
  have hall : ∀ a : Attachment, a ∈ (attached "plan.pdf".toList 1024
      "application/pdf".toList).state.db.rows .attachments → a.Limited :=
    attachments_limited (runMoves_committing (by decide +kernel))
  exact ⟨a, hget, hall a (Db.get_eq_some.mp hget).1⟩

/-- A confirmation of a file of 100 MB with no name and no type is stored. -/
theorem attachments_not_limited : ¬ ∀ c, Reach app anySchedule (genesis noFaults 0) c →
    ∀ a : Attachment, a ∈ c.state.db.rows .attachments → a.Limited := by
  intro hall
  have hstored : ((attached [] 104857600 []).state.db.get .attachments (drawnId 19)).any
      (fun a : Attachment => decide (52428800 < a.fileSize)) = true := by decide +kernel
  obtain ⟨a, hget, hlarge⟩ := (Option.any_eq_true _ _).mp hstored
  have hsize := (hall (attached [] 104857600 []) (runMoves_any fun _ => rfl) a
    (Db.get_eq_some.mp hget).1).sizeMax
  exact absurd (of_decide_eq_true hlarge) (not_lt.mpr hsize)

end

end MultiTenantSaas
