import OpenWrt.Mtd.Jffs2Pack

/-!
# Nodes in memory have their fields and checksums

No field is stored over one that was stored before, and none of those that a checksum covers
is stored behind it.
-/

namespace OpenWrt.Mtd.Jffs2.Pack

open Lib

variable {t : Target} {b : Buffer} {base : Nat}

/-! ## Directory entries -/

theorem storeDirent_before {a : Nat} (de : Dirent) (h : a < base) :
    storeDirent t b base de a = b a := by
  unfold storeDirent putCrc
  rw [putFields_before h, putFields_before h, putFields_before h, putFields_before h,
    putFields_before h, storeBytes_outside (.inl h)]

theorem storeDirent_node (b : Buffer) (base : Nat) (de : Dirent) :
    HasFields (storeDirent t b base de) base (nodeFields t (.dirent de)) ∧
      HasCrc t.big (storeDirent t b base de) base 8 8 ∧
      HasCrc t.big (storeDirent t b base de) base 32 32 := by
  have hfields : HasFields (putFields (storeBytes b base (List.replicate direntSize 0)) base
      (direntFields t de)) base (direntFields t de) := by
    apply hasFields_putFields
    simp [direntFields, typeFields, u32, Apart]
  have hhdr := hfields.putCrc t.big 8 8 (by simp [direntFields, typeFields])
  have hrest := hhdr.put (direntRest t de)
    (by simp [direntFields, direntRest, typeFields, u32, Apart])
  have hnode := hrest.putCrc t.big 32 32 (by simp [direntFields, direntRest, typeFields, u32])
  have hname := hnode.put [(direntSize, de.name.bytes)]
    (by simp [direntFields, direntRest, typeFields, u32, crcBytes, Apart, direntSize])
  refine ⟨?_, ?_, ?_⟩
  · exact hname
  · refine HasCrc.putFields ?_ _ (by simp [Apart, direntSize])
    refine HasCrc.putCrc ?_ (by decide) (by decide)
    refine HasCrc.putFields ?_ _ (by simp [direntRest, Apart])
    exact hasCrc_putCrc (by decide)
  · refine HasCrc.putFields ?_ _ (by simp [Apart, direntSize])
    exact hasCrc_putCrc (by decide)

/-! ## Inodes -/

def inodeFields (t : Target) (ri : RawInode) : List Field :=
  fileFields t ri ++ ([(4, wordBytes t.big (inodeSize + ri.data.length))] ++
    (chunkFields t ri ++ [(60, crcBytes t ri.data)]))

theorem nodeFields_inode (ri : RawInode) :
    nodeFields t (.inode ri) = inodeFields t ri ++ [(inodeSize, ri.data)] := by
  simp only [nodeFields, inodeFields, List.append_assoc]

structure HasInode (t : Target) (b : Buffer) (base : Nat) (ri : RawInode) : Prop where
  fields : HasFields b base (inodeFields t ri)
  hdrCrc : HasCrc t.big b base 8 8
  nodeCrc : HasCrc t.big b base 64 60

theorem inodeFields_lt (ri : RawInode) : ∀ f ∈ inodeFields t ri, f.1 + f.2.length ≤ inodeSize := by
  simp [inodeFields, fileFields, chunkFields, typeFields, u32, crcBytes, inodeSize]

theorem hasInode_chunkInode {ri : RawInode} (h : HasFields b 0 (fileFields t ri)) :
    HasInode t (chunkInode t b ri) 0 ri := by
  have htotlen := h.put [(4, wordBytes t.big (inodeSize + ri.data.length))]
    (by simp [fileFields, typeFields, Apart])
  have hhdr := htotlen.putCrc t.big 8 8 (by simp [fileFields, typeFields])
  have hchunk := hhdr.put (chunkFields t ri)
    (by simp [fileFields, chunkFields, typeFields, u32, Apart])
  have hnode := hchunk.putCrc t.big 64 60 (by simp [fileFields, chunkFields, typeFields, u32])
  have hdata := hnode.put [(60, crcBytes t ri.data)]
    (by simp [fileFields, chunkFields, typeFields, u32, Apart])
  refine ⟨?_, ?_, ?_⟩
  · exact hdata
  · refine HasCrc.putFields ?_ _ (by simp [Apart])
    refine HasCrc.putCrc ?_ (by decide) (by decide)
    refine HasCrc.putFields ?_ _ (by simp [chunkFields, Apart])
    exact hasCrc_putCrc (by decide)
  · refine HasCrc.putFields ?_ _ (by simp [crcBytes, Apart])
    exact hasCrc_putCrc (by decide)

def dirNode (inode : UInt32) : RawInode := ⟨inode, 1, 0x41ed, 0, 0, 0, 0, 0, []⟩

/-- The fields that `add_dir` leaves to the `memset`. -/
def zeroFields (t : Target) : List Field := [(44, u32 t 0), (56, [0]), (57, [0])]

theorem hasFields_zeroInode : HasFields zeroInode 0 (zeroFields t) := by
  unfold HasFields zeroFields u32
  cases t.big with
  | false => decide
  | true => decide

theorem crcBytes_nil : crcBytes t [] = u32 t 0 := rfl

theorem hasInode_dirInode (inode : UInt32) : HasInode t (dirInode t inode) 0 (dirNode inode) := by
  have hzero : HasFields zeroInode 0 (zeroFields t) := hasFields_zeroInode
  have htype := hzero.put (typeFields t 0xe002 ++ [(4, wordBytes t.big inodeSize)])
    (by simp [zeroFields, typeFields, Apart])
  have hhdr := htype.putCrc t.big 8 8 (by simp [zeroFields, typeFields])
  have hdir := hhdr.put (dirFields t inode)
    (by simp [zeroFields, dirFields, typeFields, u32, Apart])
  have hnode := hdir.putCrc t.big 64 60 (by simp [zeroFields, dirFields, typeFields, u32])
  have hdata := hnode.put [(60, u32 t 0)] (by simp [zeroFields, dirFields, typeFields, u32, Apart])
  refine ⟨hdata.mono ?_, ?_, ?_⟩
  · simp [inodeFields, fileFields, chunkFields, zeroFields, dirFields, typeFields, dirNode,
      crcBytes_nil, u32]
  · refine HasCrc.putFields ?_ _ (by simp [Apart])
    refine HasCrc.putCrc ?_ (by decide) (by decide)
    refine HasCrc.putFields ?_ _ (by simp [dirFields, Apart])
    exact hasCrc_putCrc (by decide)
  · refine HasCrc.putFields ?_ _ (by simp [u32, Apart])
    exact hasCrc_putCrc (by decide)

end OpenWrt.Mtd.Jffs2.Pack
