import NgxFormal.Basic
import NgxFormal.Core.Atoi
import NgxFormal.Core.Base64
import NgxFormal.Core.Buf
import NgxFormal.Core.Cidr
import NgxFormal.Core.ConfQuoted
import NgxFormal.Core.ConfRefill
import NgxFormal.Core.ConfToken
import NgxFormal.Core.Crc32
import NgxFormal.Core.Escape
import NgxFormal.Core.Hash
import NgxFormal.Core.HashCorrect
import NgxFormal.Core.HashInit
import NgxFormal.Core.HashKeys
import NgxFormal.Core.HashLookup
import NgxFormal.Core.HashOrder
import NgxFormal.Core.HashRejects
import NgxFormal.Core.HashTrees
import NgxFormal.Core.HashWalk
import NgxFormal.Core.HashWildcardFind
import NgxFormal.Core.Inet6
import NgxFormal.Core.Inet6Ntop
import NgxFormal.Core.InetAddr
import NgxFormal.Core.InetGrammar
import NgxFormal.Core.Md5
import NgxFormal.Core.OpenFileCache
import NgxFormal.Core.OpenFileCacheCalls
import NgxFormal.Core.OpenFileCacheEntries
import NgxFormal.Core.OpenFileEvents
import NgxFormal.Core.Palloc
import NgxFormal.Core.PallocRuns
import NgxFormal.Core.ParseTime
import NgxFormal.Core.ParseTimeRun
import NgxFormal.Core.PoolReset
import NgxFormal.Core.Printf
import NgxFormal.Core.PrintfPrefix
import NgxFormal.Core.Radix
import NgxFormal.Core.RadixDelete
import NgxFormal.Core.RadixLinks
import NgxFormal.Core.RadixRuns
import NgxFormal.Core.RbtreeDelete
import NgxFormal.Core.RbtreeFixup
import NgxFormal.Core.RbtreeInsert
import NgxFormal.Core.RbtreeRep
import NgxFormal.Core.RbtreeRuns
import NgxFormal.Core.ResolverAnswers
import NgxFormal.Core.ResolverCopy
import NgxFormal.Core.ResolverQuery
import NgxFormal.Core.Slab
import NgxFormal.Core.SlabBitmaps
import NgxFormal.Core.SlabChunks
import NgxFormal.Core.SlabFree
import NgxFormal.Core.SlabHeads
import NgxFormal.Core.SlabLayout
import NgxFormal.Core.SlabOps
import NgxFormal.Core.SlabPages
import NgxFormal.Core.SlabRejects
import NgxFormal.Core.SlabRuns
import NgxFormal.Core.SlabSizes
import NgxFormal.Core.SlabUse
import NgxFormal.Core.StrRbtree
import NgxFormal.Core.Times
import NgxFormal.Core.Unescape
import NgxFormal.Core.Utf8
import NgxFormal.Core.Utf8Copy
import NgxFormal.Core.Utf8Length
import NgxFormal.Event.Timer
import NgxFormal.Http.Arg
import NgxFormal.Http.CgiParams
import NgxFormal.Http.Charset
import NgxFormal.Http.CharsetBuffer
import NgxFormal.Http.CharsetSafe
import NgxFormal.Http.ChunkedFilter
import NgxFormal.Http.ComplexUri
import NgxFormal.Http.ComplexUriClean
import NgxFormal.Http.ComplexUriRuns
import NgxFormal.Http.ComplexValue
import NgxFormal.Http.ComplexValueRun
import NgxFormal.Http.DateExact
import NgxFormal.Http.DateLayout
import NgxFormal.Http.DateReads
import NgxFormal.Http.FastcgiRequest
import NgxFormal.Http.FastcgiStream
import NgxFormal.Http.FileCache
import NgxFormal.Http.FileCacheCount
import NgxFormal.Http.FileCacheKey
import NgxFormal.Http.FileCacheKeys
import NgxFormal.Http.FileCacheSize
import NgxFormal.Http.FileCacheUpdating
import NgxFormal.Http.FileCacheUses
import NgxFormal.Http.Geo
import NgxFormal.Http.GeoBlock
import NgxFormal.Http.GeoCidr
import NgxFormal.Http.GeoDelete
import NgxFormal.Http.GeoVisits
import NgxFormal.Http.HeaderLine
import NgxFormal.Http.LimitReq
import NgxFormal.Http.LimitReqKeys
import NgxFormal.Http.LimitReqRate
import NgxFormal.Http.LimitReqZone
import NgxFormal.Http.LimitZone
import NgxFormal.Http.Locations
import NgxFormal.Http.LocationsFlat
import NgxFormal.Http.LocationsLookup
import NgxFormal.Http.LocationsOrder
import NgxFormal.Http.LocationsSearch
import NgxFormal.Http.Memcached
import NgxFormal.Http.MemcachedBounds
import NgxFormal.Http.MemcachedHeader
import NgxFormal.Http.Mp4Stsc
import NgxFormal.Http.Mp4Stts
import NgxFormal.Http.MultiHeaderLines
import NgxFormal.Http.PeerSort
import NgxFormal.Http.RangeMultipart
import NgxFormal.Http.RangeParse
import NgxFormal.Http.RangeSinglepart
import NgxFormal.Http.RequestBody
import NgxFormal.Http.RequestBodyRuns
import NgxFormal.Http.RoundRobin
import NgxFormal.Http.RoundRobinBitmap
import NgxFormal.Http.RoundRobinCycle
import NgxFormal.Http.RoundRobinTries
import NgxFormal.Http.ScgiRequest
import NgxFormal.Http.Script
import NgxFormal.Http.ScriptBounds
import NgxFormal.Http.Ssi
import NgxFormal.Http.SsiCuts
import NgxFormal.Http.SsiRead
import NgxFormal.Http.SsiStorage
import NgxFormal.Http.SsiStream
import NgxFormal.Http.SsiTags
import NgxFormal.Http.SsiTurn
import NgxFormal.Http.SubExact
import NgxFormal.Http.SubStream
import NgxFormal.Http.Subrequests
import NgxFormal.Http.TimeRoundTrip
import NgxFormal.Http.UnsafeUri
import NgxFormal.Http.UriBytes
import NgxFormal.Http.Userid
import NgxFormal.Http.UwsgiRequest
import NgxFormal.Http.ValidateHost
import NgxFormal.Lib.Blocks
import NgxFormal.Lib.Bytes
import NgxFormal.Lib.Calendar
import NgxFormal.Lib.Chunked
import NgxFormal.Lib.Crc
import NgxFormal.Lib.FastCgi
import NgxFormal.Lib.Fields
import NgxFormal.Lib.Links
import NgxFormal.Lib.LongestMatch
import NgxFormal.Lib.Network
import NgxFormal.Lib.Ranges
import NgxFormal.Lib.RedBlack
import NgxFormal.Lib.Ring
import NgxFormal.Lib.Runs
import NgxFormal.Lib.Search
import NgxFormal.Lib.Utf8
import NgxFormal.Lib.Uwsgi
import NgxFormal.Lib.Window
import NgxFormal.Lib.Words
import NgxFormal.Mail.AuthHttp
import NgxFormal.Mail.ImapLogin
import NgxFormal.Mail.Outcomes
import NgxFormal.Mail.Reads
import NgxFormal.Mail.Session
import NgxFormal.Mail.Turns
