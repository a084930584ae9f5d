import VendorAmlogic.Lib.Run
import VendorAmlogic.Lib.Bytes
import VendorAmlogic.Lib.History
import VendorAmlogic.Lib.Trace
import VendorAmlogic.Lib.Raster
import VendorAmlogic.Lib.MaskFilter
import VendorAmlogic.Lib.Mem
import VendorAmlogic.Lib.Stdio
import VendorAmlogic.Lib.Blob
import VendorAmlogic.Lib.Cbc
import VendorAmlogic.Lib.CountRun
import VendorAmlogic.Lib.Window
import VendorAmlogic.Lib.Rearrange
import VendorAmlogic.Lib.Incremental
import VendorAmlogic.Lib.DList
import VendorAmlogic.Lib.CString
import VendorAmlogic.Lib.Separated
import VendorAmlogic.Lib.Uri
import VendorAmlogic.Lib.SortedBy
import VendorAmlogic.Lib.BubbleSort
import VendorAmlogic.Lib.Ring
import VendorAmlogic.Lib.Mutex
import VendorAmlogic.Lib.Crc
import VendorAmlogic.Lib.Blocks
import VendorAmlogic.Lib.InverseCipher
import VendorAmlogic.Timeshift.File
import VendorAmlogic.Timeshift.Bookkeeping
import VendorAmlogic.Timeshift.Subfile
import VendorAmlogic.Timeshift.Refinement
import VendorAmlogic.Demux.Psi
import VendorAmlogic.Demux.Dvr
import VendorAmlogic.Demux.DmxApi
import VendorAmlogic.Demux.DmxCalls
import VendorAmlogic.Demux.DataThread
import VendorAmlogic.Demux.DvrParse
import VendorAmlogic.Demux.DvrSections
import VendorAmlogic.Demux.Emu
import VendorAmlogic.Demux.EmuRing
import VendorAmlogic.Demux.EmuStages
import VendorAmlogic.Demux.EmuSections
import VendorAmlogic.Demux.EmuStream
import VendorAmlogic.Demux.EmuProgress
import VendorAmlogic.Demux.EmuRate
import VendorAmlogic.Demux.FilterAgree
import VendorAmlogic.Demux.FilterStale
import VendorAmlogic.Demux.DvrChannels
import VendorAmlogic.Demux.DvrLifecycle
import VendorAmlogic.Demux.DvrPes
import VendorAmlogic.Demux.SecBuffers
import VendorAmlogic.BootEnv.Codec
import VendorAmlogic.BootEnv.Update
import VendorAmlogic.BootEnv.Durability
import VendorAmlogic.BootEnv.Bounds
import VendorAmlogic.BootEnv.Startup
import VendorAmlogic.BootEnv.Lock
import VendorAmlogic.ResImg.Format
import VendorAmlogic.ResImg.Pack
import VendorAmlogic.ResImg.Unpack
import VendorAmlogic.ResImg.RoundTrip
import VendorAmlogic.ResImg.Report
import VendorAmlogic.ResImg.Directory
import VendorAmlogic.Osd.Devices
import VendorAmlogic.Osd.Palette
import VendorAmlogic.Osd.Clip
import VendorAmlogic.Osd.Draw
import VendorAmlogic.Osd.Pixel
import VendorAmlogic.Osd.Blit
import VendorAmlogic.Osd.Agree
import VendorAmlogic.Dsc.Devices
import VendorAmlogic.Dsc.Calls
import VendorAmlogic.Dsc.Independence
import VendorAmlogic.Smc.Transfer
import VendorAmlogic.Smc.TransferT0
import VendorAmlogic.Smc.CardExchange
import VendorAmlogic.Pes.Decode
import VendorAmlogic.Pes.Bounds
import VendorAmlogic.Player.CacheFile
import VendorAmlogic.Player.MapSearch
import VendorAmlogic.Player.PidTable
import VendorAmlogic.Player.PacketQueue
import VendorAmlogic.Player.PacketCache
import VendorAmlogic.Player.PacketSeek
import VendorAmlogic.Player.SeekTarget
import VendorAmlogic.Player.CacheSeek
import VendorAmlogic.Hls.Playlist
import VendorAmlogic.Hls.Url
import VendorAmlogic.Hls.Resolve
import VendorAmlogic.Hls.Parser
import VendorAmlogic.Hls.Text
import VendorAmlogic.Hls.Layout
import VendorAmlogic.Hls.Times
import VendorAmlogic.Hls.Ranges
import VendorAmlogic.Hls.Fetch
import VendorAmlogic.Hls.Session
import VendorAmlogic.Hls.Live
import VendorAmlogic.Hls.Vod
import VendorAmlogic.Hls.Keys
import VendorAmlogic.Hls.Tracks
import VendorAmlogic.Hls.Media
import VendorAmlogic.Hls.Variants
import VendorAmlogic.Hls.Bandwidth
import VendorAmlogic.Hls.Measure
import VendorAmlogic.Hls.SimpleCache
import VendorAmlogic.Hls.Trickplay
import VendorAmlogic.Hdcp.RxKey
import VendorAmlogic.Hdcp.KeyUnpack
import VendorAmlogic.Hdcp.ImgSum
import VendorAmlogic.Hdcp.ImgPath
import VendorAmlogic.Hdcp.Rx14Key
import VendorAmlogic.Hdcp.Sha1Stream
import VendorAmlogic.Hdcp.AesTables
import VendorAmlogic.Hdcp.Aes
import VendorAmlogic.Hdcp.AesCbc
import VendorAmlogic.Hdcp.KeySeal
import VendorAmlogic.Fbc.Flash
import VendorAmlogic.Fbc.Update
import VendorAmlogic.Fbc.ImageStream
import VendorAmlogic.Fbc.FlashArea
import VendorAmlogic.Fbc.PartitionTool
import VendorAmlogic.Fbc.CommandLine
import VendorAmlogic.Fbc.DeviceIds
import VendorAmlogic.Fbc.StoredSettings
import VendorAmlogic.Fbc.PqPacker
import VendorAmlogic.Fbc.PqStore
import VendorAmlogic.Fbc.QuickSort
import VendorAmlogic.Amsub.PgsBitmap
import VendorAmlogic.Amsub.PgsPacket
import VendorAmlogic.Amsub.PgsRead
import VendorAmlogic.Amsub.PgsDecode
import VendorAmlogic.Amsub.VobPacket
import VendorAmlogic.Amsub.VobControl
import VendorAmlogic.Amsub.VobPixels
import VendorAmlogic.Amsub.VobReset
import VendorAmlogic.Amsub.VobSafety
import VendorAmlogic.Amsub.VobPicture
import VendorAmlogic.Evt.Subscribe
import VendorAmlogic.Adp.MemPool
import VendorAmlogic.Dig.Mounts
import VendorAmlogic.Userdata.Reorder
import VendorAmlogic.Userdata.ReorderSafety
import VendorAmlogic.Userdata.Package
import VendorAmlogic.Userdata.H264Stream
import VendorAmlogic.Userdata.MpegStream
import VendorAmlogic.Userdata.CaptionThread
import VendorAmlogic.Ts.Packer
import VendorAmlogic.Ts.Demux
import VendorAmlogic.Ts.Packets
import VendorAmlogic.Ts.RoundTrip
import VendorAmlogic.Ts.Tables
import VendorAmlogic.Ts.ClockReference
