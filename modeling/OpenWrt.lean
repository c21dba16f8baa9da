import OpenWrt.Mtd.Proofs.Write
import OpenWrt.Nvram.Proofs.Overflow
import OpenWrt.Rtl83xx.Proofs.Fdb
import OpenWrt.Rtl83xx.Proofs.Bridge
import OpenWrt.Ead.Proofs.Daemon
import OpenWrt.SoftConfig.Proofs.Commit
import OpenWrt.Hnat.Proofs.Mcast
import OpenWrt.Hnat.Proofs.ExtDev
import OpenWrt.Hnat.Ageing
import OpenWrt.Metadata.Clear
import OpenWrt.Metadata.VersionFilter
import OpenWrt.Swconfig.Dump
import OpenWrt.Conninfra.Proofs.MsgThread
import OpenWrt.Mtd.Proofs.Jffs2
import OpenWrt.SNand.Proofs.Format
import OpenWrt.Nmbm.Proofs.Search
import OpenWrt.Nmbm.Proofs.MtdRead
import OpenWrt.Nmbm.Proofs.Walk
import OpenWrt.Nmbm.Proofs.Lifetime
import OpenWrt.Mtd.Proofs.Bootcount
import OpenWrt.Map.Proofs.Mapping
import OpenWrt.Mtd.Proofs.Trx
import OpenWrt.Mtd.Proofs.Imagetag
import OpenWrt.Mtd.Proofs.Fis
import OpenWrt.Mtd.Proofs.Jffs2Parse
import OpenWrt.Mtd.Proofs.Jffs2Pack
import OpenWrt.Bcm4908img.Proofs.BootfsWalk
import OpenWrt.RouterBoot.Proofs.Hardconfig
import OpenWrt.RouterBoot.Proofs.Layout
import OpenWrt.Mtdsplit.Proofs.Uimage
import OpenWrt.Mtdsplit.Proofs.Fit
import OpenWrt.Mtdsplit.Proofs.Trx
import OpenWrt.Mtdsplit.Proofs.BcmWfiSplit
import OpenWrt.Tffs.Proofs.FindEntry
import OpenWrt.Conninfra.Proofs.Ring
import OpenWrt.Ead.Proofs.Bytes
import OpenWrt.Mtwifi.TokenSet
